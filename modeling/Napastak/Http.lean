import Napastak.Decimal
import Napastak.Jwt
import Napastak.Split
import Mathlib.Data.Nat.Log

/-! The read loop of `handle_conn` and `parse_request` of `http.c`. What `recv` returns one after the other is a list
of chunks, after which the peer has closed. -/
namespace Napastak.Http
open Auth (strstr)
open Store (cstr)

def crlfCrlf : Bytes := [13, 10, 13, 10]
def lfLf : Bytes := [10, 10]

def maxReqSize : Nat := 256 * 1024 * 1024

/-- The length of the header block with its blank line. -/
def headerLen (buf : Bytes) : Option Nat :=
  match strstr (cstr buf) crlfCrlf with
  | some he => some ((cstr buf).length - he.length + 4)
  | none => (strstr (cstr buf) lfLf).map fun he => (cstr buf).length - he.length + 2

/-- `strtoull(s,NULL,10)`. -/
def strtoull (s : Bytes) : Nat :=
  match s.dropWhile isspace with
  | 45 :: cs => if 2 ^ 64 ≤ digitsValue 0 cs then 2 ^ 64 - 1 else (2 ^ 64 - digitsValue 0 cs) % 2 ^ 64
  | 43 :: cs => min (digitsValue 0 cs) (2 ^ 64 - 1)
  | cs => min (digitsValue 0 cs) (2 ^ 64 - 1)

/-- `strncasecmp(s,"content-length:",15) == 0`. -/
def startsLength (s : Bytes) : Bool := decide ((s.take 15).map tolower = ascii "content-length:")

/-- The test at one place of the search, which stops 16 bytes before the end of what was received. -/
def lengthLine (s : Bytes) : Bool := decide (16 < s.length) && decide (s.head? = some 10) && startsLength (s.drop 1)

/-- `cl`: the header is searched for in all that was received. -/
def contentLength (buf : Bytes) : Nat :=
  match buf.tails.find? lengthLine with
  | some p => strtoull (p.drop 16)
  | none => if startsLength buf then strtoull (buf.drop 15) else 0

def wantTotal (buf : Bytes) : Option Nat := (headerLen buf).map fun n => (n + contentLength buf) % 2 ^ 64

/-- The buffer of a connection; `want` is set once the end of the header block was seen. -/
structure Conn where
  cap : Nat
  used : Bytes
  want : Option Nat

inductive Received
  | closed
  | request (buf : Bytes)
  deriving DecidableEq, Repr

/-- A full buffer is doubled. -/
def Conn.grow (c : Conn) : Option Conn :=
  if c.used.length = c.cap then if maxReqSize ≤ c.cap then none else some {c with cap := min (c.cap * 2) maxReqSize}
  else some c

/-- `none` is a chunk that `recv` does not return: an empty one, or more than the room in the buffer. The second test
after the loop's body, for a total of 0, never decides. -/
def readLoop (c : Conn) : List Bytes → Option Received
  | [] => some .closed
  | chunk :: chunks => match c.grow with
    | none => some .closed
    | some c =>
      if chunk = [] ∨ c.cap < c.used.length + chunk.length then none
      else
        let buf := c.used ++ chunk
        match c.want with
        | some want => if want ≤ buf.length then some (.request buf) else readLoop {c with used := buf} chunks
        | none => match wantTotal buf with
          | none => readLoop {c with used := buf} chunks
          | some want =>
            if maxReqSize < want then some .closed
            else if want ≤ buf.length then some (.request buf)
            else readLoop {c with used := buf, want := some want} chunks

def fresh : Conn := ⟨131072,[],none⟩

structure HttpReq where
  method : Bytes
  path : Bytes
  headers : List (Bytes × Bytes)
  body : Bytes
  upgradeWs : Bool
  deriving DecidableEq, Repr

/-- What stands before and behind the first `c`. -/
def memchr (c : UInt8) (s : Bytes) : Option (Bytes × Bytes) :=
  match s.dropWhile (· ≠ c) with
  | [] => none
  | _ :: rest => some (s.takeWhile (· ≠ c),rest)

/-- A `\r` before the `\n` is not part of the value. -/
def chopCr (v : Bytes) : Bytes := if v.getLast? = some 13 then v.dropLast else v

/-- `if (p < end && *p == '\n') p++`. -/
def dropLf : Bytes → Bytes
  | 10 :: p => p
  | p => p

/-- The loop over the headers: the pairs in the order of their `hm_set`, and what is left as the body. -/
def parseHeaders : Nat → Bytes → List (Bytes × Bytes) × Bytes
  | 0, p => ([],p)
  | _, [] => ([],[])
  | fuel + 1, c :: p =>
    if c = 13 ∨ c = 10 then ([],dropLf p)
    else match memchr 58 (c :: p) with
      | none => ([],c :: p)
      | some (name,rest) => match memchr 10 (rest.dropWhile (· = 32)) with
        | none => ([],rest.dropWhile (· = 32))
        | some (value,rest) =>
          let (headers,body) := parseHeaders fuel rest
          ((cstr (name.map tolower),cstr (chopCr value)) :: headers,body)

/-- `hm_get`: the last value set. -/
def header (headers : List (Bytes × Bytes)) (name : Bytes) : Option Bytes :=
  (headers.reverse.find? fun h => decide (h.1 = name)).map Prod.snd

def wantsWebsocket (headers : List (Bytes × Bytes)) : Bool :=
  match header headers (ascii "upgrade") with
  | none => false
  | some v => decide (strcasecmp v (ascii "websocket") = 0)

def parseRequest (buf : Bytes) : Option HttpReq := do
  let (method,rest) ← memchr 32 buf
  let (path,rest) ← memchr 32 rest
  let (_,rest) ← memchr 10 rest
  let (headers,body) := parseHeaders rest.length rest
  some ⟨cstr method,cstr path,headers,body,wantsWebsocket headers⟩

/-- `req->query`, as `router_dispatch` sets it. -/
def query (path : Bytes) : Option Bytes := (memchr 63 (path.take 1023)).map Prod.snd

/-- What a handler is given. -/
def handed : Received → Option (HttpReq × Option Bytes)
  | .closed => none
  | .request buf => (parseRequest buf).map fun req => (req,query req.path)

/-! ### Requests -/

def PlainText (s : Bytes) : Prop := ∀ c ∈ s, c ≠ 0 ∧ c ≠ 10 ∧ c ≠ 13

instance (s : Bytes) : Decidable (PlainText s) := inferInstanceAs (Decidable (∀ c ∈ s, c ≠ 0 ∧ c ≠ 10 ∧ c ≠ 13))

/-- The value is a number with blanks around it. -/
def Denotes (value : Bytes) (n : Nat) : Prop := ∃ before digits after, value = List.replicate before 32 ++ digits ++ List.replicate after 32 ∧
  digits ≠ [] ∧ (∀ c ∈ digits, 48 ≤ c ∧ c ≤ 57) ∧ digitsValue 0 digits = n

/-- The parts of a request as it is sent, all its lines ended by CRLF or all by LF. -/
structure Parts where
  crlf : Bool
  method : Bytes
  path : Bytes
  version : Bytes
  lines : List Bytes
  body : Bytes
  deriving DecidableEq, Repr

def Parts.eol (r : Parts) : Bytes := if r.crlf then [13, 10] else [10]

def Parts.requestLine (r : Parts) : Bytes := r.method ++ 32 :: (r.path ++ 32 :: r.version)

/-- Lines and the blank line. -/
def block (eol : Bytes) (lines : List Bytes) : Bytes := lines.flatMap (· ++ eol) ++ eol

def Parts.head (r : Parts) : Bytes := block r.eol (r.requestLine :: r.lines)

def Parts.text (r : Parts) : Bytes := r.head ++ r.body

/-- A request whose body is as long as its Content-Length says and empty without one; a `size_t` counts its bytes. -/
structure Request extends Parts where
  methodPlain : PlainText method ∧ 32 ∉ method ∧ 58 ∉ method
  pathPlain : PlainText path ∧ 32 ∉ path
  versionPlain : PlainText version
  linesPlain : ∀ l ∈ lines, PlainText l ∧ l ≠ []
  sized : ∀ l ∈ lines, startsLength l = true → Denotes (l.drop 15) body.length
  unsized : (∀ l ∈ lines, startsLength l = false) → body = []
  counted : toParts.text.length < 2 ^ 64

/-- The header of one line. -/
def lineHeader (l : Bytes) : Option (Bytes × Bytes) := (memchr 58 l).map fun h => (h.1.map tolower,h.2.dropWhile (· = 32))

def Parts.headers (r : Parts) : List (Bytes × Bytes) := r.lines.filterMap lineHeader

def Parts.handed (r : Parts) : HttpReq × Option Bytes :=
  (⟨r.method,r.path,r.headers,r.body,wantsWebsocket r.headers⟩,query r.path)

/-- However the bytes of the request and those after it arrive, the handler is given the request. -/
def HandsOver (r : Parts) (rest : Bytes) : Prop := ∀ chunks received, chunks.flatten = r.text ++ rest →
  readLoop fresh chunks = some received → handed received = some r.handed

/-- The size of the buffer once it holds `n` bytes. -/
def capFor (n : Nat) : Nat := 2 ^ max 17 (Nat.clog 2 n)

/-- What may arrive together with the end of the request. -/
def spill (r : Parts) (rest : Bytes) : Bytes := rest.take (capFor r.text.length - r.text.length)

/-- The request fits; nothing arrives with its end (or one LF after the bare LF that ends a request without a body);
its header lines have colons; and with bare LFs the body does not start with one, nor can what arrives with the end of
the headers hold a blank line of CRLFs. -/
structure Clean (r : Parts) (rest : Bytes) : Prop where
  fits : r.text.length ≤ maxReqSize
  alone : spill r rest = [] ∨ r.crlf = false ∧ r.body = [] ∧ spill r rest = [10]
  colons : ∀ l ∈ r.lines, 58 ∈ l
  bare : r.crlf = false → r.body.head? ≠ some 10 ∧ ¬ crlfCrlf <:+: cstr (r.text.take (capFor r.head.length))

end Napastak.Http
