import Napastak.Split

/-! `xml.c`: the reader of elements, on the bytes that are left of its source. Every call and every round of a loop that moves by
what other readers take takes one from `n`; none where that is used up. -/
namespace Napastak.Xml
open Store (cstr)

/-! ### The readers -/

def wsByte (c : UInt8) : Bool := c = 32 ∨ c = 9 ∨ c = 13 ∨ c = 10

def skipWs (s : Bytes) : Bytes := s.dropWhile wsByte

/-- What stands behind the first `c`. -/
def behindChar (c : UInt8) (s : Bytes) : Bytes := (s.dropWhile (· ≠ c)).drop 1

/-- What stands before the first `needle` and behind it. -/
def findStr (needle : Bytes) : Bytes → Option (Bytes × Bytes)
  | [] => none
  | c :: s =>
    if needle.isPrefixOf (c :: s) then some ([],(c :: s).drop needle.length)
    else (findStr needle s).map fun (before,rest) => (c :: before,rest)

def behindStr (needle s : Bytes) : Bytes := ((findStr needle s).map Prod.snd).getD []

/-- The bytes `read_name` goes over. -/
def nameByte (c : UInt8) : Bool := !(wsByte c ∨ c = 62 ∨ c = 47 ∨ c = 61 ∨ c = 63)

def readName (s : Bytes) : Bytes × Bytes := (cstr (s.takeWhile nameByte),s.dropWhile nameByte)

def hexValue (c : UInt8) : Nat := if isdigit c then c.toNat - 48 else (tolower c).toNat - 87

def isHex (c : UInt8) : Bool := isdigit c ∨ (97 ≤ tolower c ∧ tolower c ≤ 102)

/-- `strtoul` on so few digits that none is lost. -/
def strtoul (base : Nat) (s : Bytes) : Nat :=
  let s := s.dropWhile isspace
  let neg := s.head? = some 45
  let s := if neg ∨ s.head? = some 43 then s.tail else s
  let s := if base = 16 ∧ s.head? = some 48 ∧ (s.tail.head?.map tolower) = some 120 then s.drop 2 else s
  let v := (s.takeWhile fun c => if base = 16 then isHex c else isdigit c).foldl (fun v c => v * base + hexValue c) 0
  if neg then (2 ^ 64 - v) % 2 ^ 64 else v

def bufPutCp (cp : Nat) : Bytes :=
  if cp < 0x80 then [UInt8.ofNat cp]
  else if cp < 0x800 then [UInt8.ofNat (0xC0 ||| cp >>> 6),UInt8.ofNat (0x80 ||| (cp &&& 0x3F))]
  else if cp < 0x10000 then
    [UInt8.ofNat (0xE0 ||| cp >>> 12),UInt8.ofNat (0x80 ||| (cp >>> 6 &&& 0x3F)),UInt8.ofNat (0x80 ||| (cp &&& 0x3F))]
  else
    [UInt8.ofNat (0xF0 ||| cp >>> 18),UInt8.ofNat (0x80 ||| (cp >>> 12 &&& 0x3F)),UInt8.ofNat (0x80 ||| (cp >>> 6 &&& 0x3F)),
      UInt8.ofNat (0x80 ||| (cp &&& 0x3F))]

/-- `decode_entity` behind its `&`: what is put out and how many bytes are taken, none where no `;` is near. -/
def decodeEntity (t : Bytes) : Bytes × Nat :=
  let e := t.takeWhile (· ≠ 59)
  if e.length = t.length ∨ 11 < e.length then ([38],0)
  else
    let out :=
      if e = ascii "lt" then [60]
      else if e = ascii "gt" then [62]
      else if e = ascii "amp" then [38]
      else if e = ascii "quot" then [34]
      else if e = ascii "apos" then [39]
      else if 2 ≤ e.length ∧ e.head? = some 35 then
        bufPutCp ((if (e.tail.head?.map tolower) = some 120 then strtoul 16 (e.drop 2) else strtoul 10 e.tail) % 2 ^ 32)
      else 38 :: (e ++ [59])
    (out,e.length + 1)

/-- Decoded bytes up to `stop`, and what is left from there on; the first bytes belong to an entity that is done. -/
def readText (stop : UInt8) : Nat → Bytes → Bytes × Bytes
  | _, [] => ([],[])
  | k + 1, _ :: s => readText stop k s
  | 0, c :: s =>
    if c = stop then ([],c :: s)
    else if c = 38 then ((decodeEntity s).1 ++ (readText stop (decodeEntity s).2 s).1,(readText stop (decodeEntity s).2 s).2)
    else (c :: (readText stop 0 s).1,(readText stop 0 s).2)

def readQuoted (q : UInt8) (s : Bytes) : Bytes × Bytes := (cstr (readText q 0 s).1,(readText q 0 s).2.tail)

/-! ### Elements -/

structure XmlAttr where
  name : Bytes
  value : Bytes
  deriving DecidableEq

inductive XmlNode
  | mk (name text : Bytes) (attrs : List XmlAttr) (kids : List XmlNode)

/-- A round of the loop over attributes. -/
def readAttr (s : Bytes) : XmlAttr × Bytes :=
  let name := (readName s).1
  let s := skipWs (readName s).2
  if s.head? = some 61 then
    match skipWs s.tail with
    | [] => (⟨name,[]⟩,[])
    | q :: t => if q = 34 ∨ q = 39 then (⟨name,(readQuoted q t).1⟩,(readQuoted q t).2) else (⟨name,[]⟩,q :: t)
  else (⟨name,[]⟩,s)

/-- The attributes, and whether content follows them. -/
def attrLoop : Nat → Bytes → Option (List XmlAttr × Bool × Bytes)
  | 0, _ => none
  | n + 1, s =>
    match skipWs s with
    | [] => some ([],false,[])
    | c :: t =>
      if c = 62 then some ([],true,t)
      else if c = 47 then some ([],false,if t.head? = some 62 then t.tail else t)
      else (attrLoop n (readAttr (c :: t)).2).map fun (attrs,rest) => ((readAttr (c :: t)).1 :: attrs,rest)

def commentStart : Bytes := ascii "<!--"
def cdataStart : Bytes := ascii "<![CDATA["

mutual
/-- `parse_element` behind its `<`. -/
def parseElement : Nat → Bytes → Option (XmlNode × Bytes)
  | 0, _ => none
  | n + 1, s =>
    (attrLoop n (readName s).2).bind fun (attrs,content,s') =>
      if content then (contentLoop n s').map fun (text,kids,rest) => (⟨(readName s).1,cstr text,attrs,kids⟩,rest)
      else some (⟨(readName s).1,[],attrs,[]⟩,s')
def contentLoop : Nat → Bytes → Option (Bytes × List XmlNode × Bytes)
  | 0, _ => none
  | _ + 1, [] => some ([],[],[])
  | n + 1, c :: t =>
    if c = 60 then
      if t.head? = some 47 then some ([],[],behindChar 62 (c :: t))
      else if cdataStart.isPrefixOf (c :: t) then
        let cut := (findStr (ascii "]]>") (t.drop 8)).getD (t.drop 8,[])
        (contentLoop n cut.2).map fun (text,rest) => (cut.1 ++ text,rest)
      else if commentStart.isPrefixOf (c :: t) then contentLoop n (behindStr (ascii "-->") (t.drop 3))
      else if t.head? = some 63 ∨ t.head? = some 33 then contentLoop n (behindChar 62 (c :: t))
      else
        (parseElement n t).bind fun (kid,s) => (contentLoop n s).map fun (text,kids,rest) => (text,kid :: kids,rest)
    else (contentLoop n (readText 60 0 (c :: t)).2).map fun (text,rest) => ((readText 60 0 (c :: t)).1 ++ text,rest)
end

/-- Every branch looks at the second byte only, but for the comment. -/
def skipMisc : Nat → Bytes → Option Bytes
  | 0, _ => none
  | n + 1, s =>
    let s := skipWs s
    if commentStart.isPrefixOf s then skipMisc n (behindStr (ascii "-->") (s.drop 4))
    else if s.tail.head? = some 63 then skipMisc n (behindStr (ascii "?>") (s.drop 2))
    else if s.tail.head? = some 33 then skipMisc n (behindChar 62 (s.drop 2))
    else some s

/-- The root element; none in the inner option where there is none. -/
def xmlParse (n : Nat) (src : Bytes) : Option (Option XmlNode) :=
  (skipMisc n src).bind fun s => if s.head? = some 60 then (parseElement n s.tail).map fun (root,_) => some root else some none

end Napastak.Xml
