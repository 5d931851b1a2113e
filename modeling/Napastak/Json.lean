import Napastak.NamedParams
import Napastak.Split

/-! `json.c`: the writer that appends to a buffer and takes its commas from the last byte of it, and the
recursive reader. -/
namespace Napastak.Json
open Query Sql

/-! The writer. -/

def jbComma (j : Bytes) : Bytes :=
  match j.getLast? with
  | none => j
  | some last => if last = 91 ∨ last = 123 ∨ last = 58 then j else j ++ [44]

def jbObjBegin (j : Bytes) : Bytes := jbComma j ++ [123]

def jbObjEnd (j : Bytes) : Bytes := j ++ [125]

def jbArrBegin (j : Bytes) : Bytes := jbComma j ++ [91]

def jbArrEnd (j : Bytes) : Bytes := j ++ [93]

/-- A key goes out as it is. -/
def jbKey (j k : Bytes) : Bytes := jbComma j ++ 34 :: (k ++ [34,58])

def hexDigit (d : UInt8) : UInt8 := if d < 10 then 48 + d else 87 + d

def escape (c : UInt8) : Bytes :=
  if c = 34 then [92,34]
  else if c = 92 then [92,92]
  else if c = 10 then [92,110]
  else if c = 13 then [92,114]
  else if c = 9 then [92,116]
  else if c < 32 then [92,117,48,48,hexDigit (c / 16),hexDigit (c % 16)]
  else [c]

def jbStrn (j s : Bytes) : Bytes := jbComma j ++ 34 :: (s.flatMap escape ++ [34])

def jbInt (j : Bytes) (v : Int64) : Bytes := jbComma j ++ lld v

def jbDouble {F : Type} [JsonDoubles F] (j : Bytes) (d : F) : Bytes := jbComma j ++ jsonFmtDouble d

def jbBool (j : Bytes) (b : Bool) : Bytes := jbComma j ++ if b then ascii "true" else ascii "false"

def jbNull (j : Bytes) : Bytes := jbComma j ++ ascii "null"

/-- What a caller of the writer writes. -/
inductive Tree
  | null
  | bool (b : Bool)
  | int (v : Int64)
  | str (s : Bytes)
  | arr (items : List Tree)
  | obj (fields : List (Bytes × Tree))

mutual
def Tree.write (j : Bytes) : Tree → Bytes
  | .null => jbNull j
  | .bool b => jbBool j b
  | .int v => jbInt j v
  | .str s => jbStrn j s
  | .arr ts => jbArrEnd (writeItems (jbArrBegin j) ts)
  | .obj fs => jbObjEnd (writeFields (jbObjBegin j) fs)
def writeItems (j : Bytes) : List Tree → Bytes
  | [] => j
  | t :: ts => writeItems (t.write j) ts
def writeField (j : Bytes) : Bytes × Tree → Bytes
  | (k,t) => t.write (jbKey j k)
def writeFields (j : Bytes) : List (Bytes × Tree) → Bytes
  | [] => j
  | f :: fs => writeFields (writeField j f) fs
end

/-! The reader. Behind the end of the text stands a zero byte. -/

/-- A key is `none` where no string was read for it. -/
inductive JVal (F : Type)
  | null
  | bool (b : Bool)
  | number (d : F)
  | string (s : Bytes)
  | array (items : List (JVal F))
  | object (fields : List (Option Bytes × JVal F))
  | error

def skipWs (s : Bytes) : Bytes := s.dropWhile isspace

def unescape (c : UInt8) : UInt8 := if c = 110 then 10 else if c = 114 then 13 else if c = 116 then 9 else c

/-- `cp <<= 4` and the digit in the low bits; another byte leaves them zero. -/
def hexStep (cp : Nat) (h : UInt8) : Nat :=
  if 48 ≤ h ∧ h ≤ 57 then cp * 16 + (h.toNat - 48)
  else if 97 ≤ h ∧ h ≤ 102 then cp * 16 + (h.toNat - 87)
  else if 65 ≤ h ∧ h ≤ 70 then cp * 16 + (h.toNat - 55)
  else cp * 16

def codeUnit (hs : Bytes) : Bytes :=
  let cp := hs.foldl hexStep 0
  if cp < 128 then [UInt8.ofNat cp]
  else if cp < 2048 then [UInt8.ofNat (192 + cp / 64),UInt8.ofNat (128 + cp % 64)]
  else [UInt8.ofNat (224 + cp / 4096),UInt8.ofNat (128 + cp / 64 % 64),UInt8.ofNat (128 + cp % 64)]

/-- The rest of `parse_string` behind the opening quote. -/
def parseChars : Bytes → Bytes × Bytes
  | [] => ([],[])
  | c :: s =>
    if c = 34 then ([],s)
    else if c ≠ 92 then (c :: (parseChars s).1,(parseChars s).2)
    else
      match s with
      | [] => ([0],[])
      | e :: t =>
        if e ≠ 117 then (unescape e :: (parseChars t).1,(parseChars t).2)
        else
          match t with
          | h₁ :: h₂ :: h₃ :: h₄ :: u => (codeUnit [h₁,h₂,h₃,h₄] ++ (parseChars u).1,(parseChars u).2)
          | few => (codeUnit few,[])

section
variable {F : Type} [Doubles F]

/-- A string where a key must stand; elsewhere nothing is read. -/
def parseKey : Bytes → Option Bytes × Bytes
  | [] => (none,[])
  | c :: s => if c = 34 then (some (parseChars s).1,(parseChars s).2) else (none,c :: s)

def skipColon : Bytes → Bytes
  | [] => []
  | c :: s => if c = 58 then s else c :: s

mutual
/-- Every call and every round of a loop takes one from `n`; a loop that stands still never ends. -/
def parseValue : Nat → Bytes → Option (JVal F × Bytes)
  | 0, _ => none
  | n + 1, s =>
    match skipWs s with
    | [] => some (.error,[])
    | c :: t =>
      if c = 34 then some (.string (parseChars t).1,(parseChars t).2)
      else if c = 91 then parseArray n t
      else if c = 123 then parseObject n t
      else if (ascii "null").isPrefixOf (c :: t) then some (.null,t.drop 3)
      else if (ascii "true").isPrefixOf (c :: t) then some (.bool true,t.drop 3)
      else if (ascii "false").isPrefixOf (c :: t) then some (.bool false,t.drop 4)
      else if c = 45 ∨ isdigit c then
        match Doubles.strtod (c :: t) with
        | some (d,rest) => some (.number d,rest)
        | none => some (.number Doubles.zero,c :: t)
      else some (.error,c :: t)
def parseArray : Nat → Bytes → Option (JVal F × Bytes)
  | 0, _ => none
  | n + 1, s =>
    if (skipWs s).head? = some 93 then some (.array [],(skipWs s).drop 1)
    else (parseItems n s).map fun (items,rest) => (.array items,rest)
def parseItems : Nat → Bytes → Option (List (JVal F) × Bytes)
  | 0, _ => none
  | n + 1, s =>
    (parseValue n (skipWs s)).bind fun (v,s) =>
      match skipWs s with
      | [] => some ([v],[])
      | c :: t =>
        if c = 93 then some ([v],t)
        else (parseItems n (if c = 44 then t else c :: t)).map fun (vs,rest) => (v :: vs,rest)
def parseObject : Nat → Bytes → Option (JVal F × Bytes)
  | 0, _ => none
  | n + 1, s =>
    if (skipWs s).head? = some 125 then some (.object [],(skipWs s).drop 1)
    else (parseFields n s).map fun (fields,rest) => (.object fields,rest)
def parseFields : Nat → Bytes → Option (List (Option Bytes × JVal F) × Bytes)
  | 0, _ => none
  | n + 1, s =>
    let (key,s) := parseKey (skipWs s)
    (parseValue n (skipWs (skipColon (skipWs s)))).bind fun (v,s) =>
      match skipWs s with
      | [] => some ([(key,v)],[])
      | c :: t =>
        if c = 125 then some ([(key,v)],t)
        else (parseFields n (if c = 44 then t else c :: t)).map fun (fs,rest) => ((key,v) :: fs,rest)
end

/-- `json_parse`; what stands behind the value is not looked at. -/
def jsonParse (n : Nat) (src : Bytes) : Option (JVal F) := (parseValue n src).map (·.1)

/-- The first field whose key is the name up to a zero byte; a missing key is none. -/
def jsonGet (obj : JVal F) (key : Bytes) : Option (JVal F) :=
  match obj with
  | .object fields => (fields.find? fun f => f.1.map Store.cstr = some key).map (·.2)
  | _ => none

mutual
/-- The value a tree stands for; an integer is held as a double. -/
def Tree.value : Tree → JVal F
  | .null => .null
  | .bool b => .bool b
  | .int v => .number (Doubles.ofInt v.toInt)
  | .str s => .string s
  | .arr ts => .array (itemValues ts)
  | .obj fs => .object (fieldValues fs)
def itemValues : List Tree → List (JVal F)
  | [] => []
  | t :: ts => t.value :: itemValues ts
def fieldValue : Bytes × Tree → Option Bytes × JVal F
  | (k,t) => (some k,t.value)
def fieldValues : List (Bytes × Tree) → List (Option Bytes × JVal F)
  | [] => []
  | f :: fs => fieldValue f :: fieldValues fs
end
end

end Napastak.Json
