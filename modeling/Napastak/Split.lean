import Napastak.CStr
import Mathlib.Data.List.TakeWhile

/-! Reading a row record back into cells, from `api.c`: the plain splitter, the strict
RFC 4180 one and `wal_split_row`, which chooses between them by the first byte. -/
namespace Napastak.Store

def comma : UInt8 := 44
def quote : UInt8 := 34
def cr : UInt8 := 13
def lf : UInt8 := 10

/-- The bytes of a buffer up to its first NUL. -/
def cstr (buf : Bytes) : Bytes := buf.takeWhile (· ≠ 0)

theorem cstrSelf {buf : Bytes} (h : (0 : UInt8) ∉ buf) : cstr buf = buf :=
  List.takeWhile_eq_self_iff.mpr fun c hc => by simpa using fun e : c = 0 => h (e ▸ hc)

/-- The loop that cuts `\n` and `\r` off the end of a line. -/
def trimEnd (line : Bytes) : Bytes := (line.reverse.dropWhile fun c => c = lf ∨ c = cr).reverse

/-- `split_line_simple` with room for `left` more fields; the last one keeps its delimiters. -/
def splitSimpleGo (delim : UInt8) : Nat → Bytes → List Bytes
  | _, [] => [[]]
  | 0, c :: cs => [c :: cs]
  | left + 1, c :: cs =>
    if c = delim then [] :: splitSimpleGo delim left cs
    else match splitSimpleGo delim (left + 1) cs with
      | [] => [[c]]
      | f :: fs => (c :: f) :: fs

def splitLineSimple (line : Bytes) (maxCols : Nat) : List Bytes := splitSimpleGo comma (maxCols - 1) line

/-- The inside of a quoted field and what follows its closing quote; `none` when it is not closed. -/
def quotedField : Bytes → Option (Bytes × Bytes)
  | [] => none
  | [c] => if c = quote then some ([],[]) else none
  | c :: d :: cs =>
    if c = quote then
      if d = quote then (quotedField cs).map fun p => (quote :: p.1,p.2) else some ([],d :: cs)
    else (quotedField (d :: cs)).map fun p => (c :: p.1,p.2)

/-- An unquoted field up to a delimiter or the end of the line; a quote inside is an error. -/
def plainField (delim : UInt8) : Bytes → Option (Bytes × Bytes)
  | [] => some ([],[])
  | c :: cs =>
    if c = delim ∨ c = cr ∨ c = lf then some ([],c :: cs)
    else if c = quote then none
    else (plainField delim cs).map fun p => (c :: p.1,p.2)

/-- One field, whether it was quoted, and the rest. -/
def rfcField (delim : UInt8) : Bytes → Option ((Bytes × Bool) × Bytes)
  | [] => some (([],false),[])
  | c :: cs =>
    if c = quote then
      match quotedField cs with
      | none => none
      | some (f,rest) =>
        match rest with
        | [] => some ((f,true),[])
        | d :: _ => if d = delim ∨ d = cr ∨ d = lf then some ((f,true),rest) else none
    else (plainField delim (c :: cs)).map fun p => ((p.1,false),p.2)

/-- `split_line_rfc4180_q`; each turn of the loop takes up the delimiter it goes on after. -/
def splitRfcGo (delim : UInt8) : Nat → Bytes → Option (List (Bytes × Bool))
  | 0, _ => none
  | fuel + 1, line =>
    match rfcField delim line with
    | none => none
    | some (f,d :: rest) =>
      if d = delim then (splitRfcGo delim fuel rest).map (f :: ·) else some [f]
    | some (f,[]) => some [f]

def splitLineRfc4180 (line : Bytes) : Option (List (Bytes × Bool)) := splitRfcGo comma (line.length + 1) line

def nullText : Bytes := ascii "NULL"

/-- `wal_split_row`. -/
def walSplitRow (line : Bytes) (maxCols : Nat) : List Bytes :=
  match line with
  | 4 :: rest =>
    match splitLineRfc4180 rest with
    | some parts => (parts.take maxCols).map fun p => if p.2 = false ∧ p.1 = nullText then nullSentinel else p.1
    | none => splitLineSimple rest maxCols
  | _ => (splitLineSimple line maxCols).map fun f => if f = nullText then nullSentinel else f

end Napastak.Store
