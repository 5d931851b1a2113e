import Napastak.Split
import Napastak.Lib.Slots

/-! The PostgreSQL protocol server: the start-up handshake, the password, and the loop over query-phase
messages with its tables of statements and portals. An index outside a buffer is a fault. -/
namespace Napastak.PgWire
open Store (cstr)

/-- A read outside the bytes received, or a write past the end of a buffer. -/
inductive Fault where
  | read (index : Nat)
  | write (index : Nat)
  deriving DecidableEq, Repr

def protocolV3 : Nat := 196608
def sslRequest : Nat := 80877103
def cancelRequest : Nat := 80877102
def bufMax : Nat := 1024 * 1024
/-- `body` of `connection_thread`. -/
def startupCap : Nat := 8192
/-- Bytes of a name, its NUL left out. -/
def nameMax : Nat := 63

def rd (buf : Bytes) (i : Nat) : Except Fault UInt8 :=
  match buf[i]? with
  | some b => .ok b
  | none => .error (.read i)

def be32 (buf : Bytes) (i : Nat) : Except Fault Nat := do
  let a ← rd buf i
  let b ← rd buf (i + 1)
  let c ← rd buf (i + 2)
  let d ← rd buf (i + 3)
  .ok (a.toNat <<< 24 ||| b.toNat <<< 16 ||| c.toNat <<< 8 ||| d.toNat)

/-- `read_full` into a buffer of so many bytes: what arrives is written until `n` bytes are there or the stream ends. -/
def readFull (cap n : Nat) (stream : Bytes) : Except Fault (Option (Bytes × Bytes)) :=
  if cap < min n stream.length then .error (.write cap)
  else .ok (if n ≤ stream.length then some (stream.take n,stream.drop n) else none)

def slice (buf : Bytes) (i j : Nat) : Bytes := (buf.drop i).take (j - i)

/-- `while (p < end && *p) p++`, so many steps at most. -/
def scan (buf : Bytes) (stop : Nat) : Nat → Nat → Except Fault Nat
  | 0, p => .ok p
  | fuel + 1, p => do
    if p < stop then
      if (← rd buf p) ≠ 0 then scan buf stop fuel (p + 1) else .ok p
    else .ok p

def scanTo (buf : Bytes) (stop p : Nat) : Except Fault Nat := scan buf stop (stop - p) p

/-! ### What is sent -/

/-- What the query callback can send. -/
inductive Sent where
  | rowDescription (names : List Bytes)
  | dataRow (values : List (Option Bytes))
  | commandComplete (tag : Bytes)
  | error (sqlstate msg : Bytes)
  deriving DecidableEq, Repr

inductive Event where
  | call (sql : Bytes)
  | sent (s : Sent)
  | tag (type : UInt8)
  | ready (status : UInt8)
  deriving DecidableEq, Repr

/-- An error of a handler: SQLSTATE and text. -/
abbrev Fail := Bytes × Bytes

def fail (sqlstate msg : String) : Fail := (ascii sqlstate,ascii msg)

/-- The callbacks and what the surroundings decide: the sends of the handshake, and whether the server runs. -/
structure Env where
  authenticate : Bytes → Bytes → Bytes → Bool
  query : Option (Nat → Bytes → List Sent)
  sslReply : Bool
  askPassword : Bool
  greeting : Bool
  running : Nat → Bool

structure Portal where
  prep : Fin 32
  values : List (Option Bytes)
  deriving DecidableEq

structure Conn where
  prepared : Slots 32 Bytes Bytes
  portals : Slots 32 Bytes Portal
  batchError : Bool
  /-- How often the callback was called. -/
  queries : Nat

def Conn.init : Conn := ⟨fun _ => none,fun _ => none,false,0⟩

/-! ### Readers of message bodies -/

/-- The string and the offset after its NUL. -/
def xqCstr (buf : Bytes) (len off : Nat) : Except Fault (Option (Bytes × Nat)) := do
  if off ≥ len then .ok none
  else
    let e ← scanTo buf len off
    .ok (if e ≥ len then none else some (slice buf off e,e + 1))

def xqInt16 (buf : Bytes) (len off : Nat) : Except Fault (Option (Int × Nat)) := do
  if off + 2 > len then .ok none
  else
    let a ← rd buf off
    let b ← rd buf (off + 1)
    .ok (some (((a.toNat <<< 8 ||| b.toNat : Nat) : Int).bmod (2 ^ 16),off + 2))

def xqInt32 (buf : Bytes) (len off : Nat) : Except Fault (Option (Int × Nat)) := do
  if off + 4 > len then .ok none
  else
    let v ← be32 buf off
    .ok (some ((v : Int).bmod (2 ^ 32),off + 4))

/-! ### Substitution of parameters -/

def digits (s : Bytes) : Bytes := s.dropWhile isdigit

def valueIsNumeric (v : Bytes) : Bool :=
  let p := if v.head? = some 45 ∨ v.head? = some 43 then v.tail else v
  let hasDigit := p.head?.any isdigit
  let p := digits p
  hasDigit && match p with
    | [] => true
    | 46 :: p =>
      let p := digits p
      let p := if p.head? = some 101 ∨ p.head? = some 69 then
          let p := p.tail
          digits (if p.head? = some 45 ∨ p.head? = some 43 then p.tail else p)
        else p
      p = []
    | _ => false

/-- A value that is written as it stands. -/
def isRaw (v : Bytes) : Bool :=
  valueIsNumeric v ∨ strcasecmp v (ascii "true") = 0 ∨ strcasecmp v (ascii "false") = 0

def putByte (cap : Nat) (out : Bytes) (c : UInt8) : Bytes := if out.length + 1 < cap then out ++ [c] else out

/-- The inside of a text literal, as far as there is room. -/
def putText (cap : Nat) : Bytes → Bytes → Bytes
  | out, [] => out
  | out, c :: v => if out.length + 2 < cap then putText cap (out ++ if c = 39 then [39,39] else [c]) v else out

/-- `xq_append_value`: what does not fit the buffer is left out. -/
def appendValue (cap : Nat) (out : Bytes) : Option Bytes → Bytes
  | none => if out.length + 4 < cap then out ++ ascii "NULL" else out
  | some v =>
    if isRaw v then if out.length + v.length < cap then out ++ v else out
    else putByte cap (putText cap (putByte cap out 39) v) 39

/-- The digits after a `$`, as an `int`, and what follows them. -/
def paramIndex : Int → Bytes → Int × Bytes
  | idx, [] => (idx,[])
  | idx, c :: s => if isdigit c then paramIndex ((idx * 10 + (c.toNat - 48)).bmod (2 ^ 32)) s else (idx,c :: s)

theorem paramIndexShort (idx : Int) (s : Bytes) : (paramIndex idx s).2.length ≤ s.length := by
  induction s generalizing idx with
  | nil => exact Nat.le_refl 0
  | cons c s ih =>
    rw [paramIndex]
    split
    · exact Nat.le_succ_of_le (ih _)
    · exact Nat.le_refl _

/-- The value of a placeholder, NULL for one out of range. -/
def paramValue (values : List (Option Bytes)) (idx : Int) : Option Bytes :=
  if 1 ≤ idx ∧ idx ≤ values.length then values.getD (idx.toNat - 1) none else none

def substituteFrom (cap : Nat) (values : List (Option Bytes)) (out : Bytes) : Bytes → Bytes
  | [] => out
  | c :: s =>
    if c = 36 ∧ s.head?.any isdigit then
      substituteFrom cap values (appendValue cap out (paramValue values (paramIndex 0 s).1)) (paramIndex 0 s).2
    else substituteFrom cap values (putByte cap out c) s
termination_by s => s.length
decreasing_by
  · exact Nat.lt_succ_of_le (paramIndexShort 0 s)
  · exact Nat.lt_succ_self _

/-- The buffer is measured with every value once. -/
def substituteCap (sql : Bytes) (values : List (Option Bytes)) : Nat :=
  sql.length + 64 + (values.map fun
    | none => 6
    | some v => v.length * 2 + 4).sum

def substituteParams (sql : Bytes) (values : List (Option Bytes)) : Bytes :=
  substituteFrom (substituteCap sql values) values [] sql

/-- What a portal hands to the callback. -/
def finalSql (sql : Bytes) (values : List (Option Bytes)) : Bytes :=
  if values = [] then sql else substituteParams sql values

/-! ### Message bodies -/

def decodeParse (body : Bytes) (len : Nat) : Except Fault (Except Fail (Bytes × Bytes)) := do
  match ← xqCstr body len 0 with
  | none => .ok (.error (fail "08P01" "Parse: malformed body"))
  | some (name,off) =>
    match ← xqCstr body len off with
    | none => .ok (.error (fail "08P01" "Parse: malformed body"))
    | some (sql,off) =>
      match ← xqInt16 body len off with
      | none => .ok (.error (fail "08P01" "Parse: missing param-type count"))
      | some _ => .ok (.ok (name,sql))

/-- So many format codes. -/
def readFormats (body : Bytes) (len : Nat) : Nat → Nat → Except Fault (Option (List Int × Nat))
  | 0, off => .ok (some ([],off))
  | n + 1, off => do
    match ← xqInt16 body len off with
    | none => .ok none
    | some (v,off) =>
      match ← readFormats body len n off with
      | none => .ok none
      | some (vs,off) => .ok (some (v :: vs,off))

/-- `memcpy` out of the body. -/
def copyBytes (buf : Bytes) (off n : Nat) : Except Fault Bytes :=
  if off + n ≤ buf.length then .ok (slice buf off (off + n)) else .error (.read buf.length)

def badBind : Fail := fail "08P01" "Bind: malformed body"

/-- So many values from the `i`-th on, each in its format; no text where the length is negative. -/
def readValues (body : Bytes) (len : Nat) (fmt : Nat → Int) : Nat → Nat → Nat →
    Except Fault (Except Fail (List (Option Bytes) × Nat))
  | 0, _, off => .ok (.ok ([],off))
  | n + 1, i, off => do
    match ← xqInt32 body len off with
    | none => .ok (.error badBind)
    | some (l,off) =>
      if l < 0 then
        match ← readValues body len fmt n (i + 1) off with
        | .error e => .ok (.error e)
        | .ok (vs,off) => .ok (.ok (none :: vs,off))
      else if off + l.toNat > len then .ok (.error badBind)
      else if fmt i ≠ 0 then
        .ok (.error (fail "0A000" "binary parameter format not supported (use text format)"))
      else
        let v ← copyBytes body off l.toNat
        match ← readValues body len fmt n (i + 1) (off + l.toNat) with
        | .error e => .ok (.error e)
        | .ok (vs,off) => .ok (.ok (some (cstr v) :: vs,off))

structure BindBody where
  portal : Bytes
  stmt : Bytes
  values : List (Option Bytes)

/-- The formats: none is all text, one is for every value, more are one for each. -/
def decodeFormats (body : Bytes) (len : Nat) (nFmt : Int) (off : Nat) : Except Fault (Option ((Nat → Int) × Nat)) := do
  if nFmt = 1 then
    match ← xqInt16 body len off with
    | none => .ok none
    | some (v,off) => .ok (some (fun _ => v,off))
  else
    match ← readFormats body len nFmt.toNat off with
    | none => .ok none
    | some (vs,off) => .ok (some (fun i => vs.getD i 0,off))

def decodeBind (body : Bytes) (len : Nat) : Except Fault (Except Fail BindBody) := do
  match ← xqCstr body len 0 with
  | none => .ok (.error (fail "08P01" "Bind: malformed cstrings"))
  | some (portal,off) =>
    match ← xqCstr body len off with
    | none => .ok (.error (fail "08P01" "Bind: malformed cstrings"))
    | some (stmt,off) =>
      match ← xqInt16 body len off with
      | none => .ok (.error (fail "08P01" "Bind: missing format-code count"))
      | some (nFmt,off) =>
        match ← decodeFormats body len nFmt off with
        | none => .ok (.error badBind)
        | some (fmt,off) =>
          match ← xqInt16 body len off with
          | none => .ok (.error badBind)
          | some (nParams,off) =>
            match ← readValues body len fmt nParams.toNat 0 off with
            | .error e => .ok (.error e)
            | .ok (values,off) =>
              let _ ← xqInt16 body len off
              .ok (.ok ⟨portal,stmt,values⟩)

def decodeExecute (body : Bytes) (len : Nat) : Except Fault (Option Bytes) := do
  match ← xqCstr body len 0 with
  | none => .ok none
  | some (portal,off) =>
    match ← xqInt32 body len off with
    | none => .ok none
    | some _ => .ok (some portal)

/-- The kind and the name, empty where it is not terminated. -/
def decodeClose (body : Bytes) (len : Nat) : Except Fault (UInt8 × Bytes) := do
  let kind ← rd body 0
  let name ← xqCstr body len 1
  .ok (kind,(name.map (·.1)).getD [])

/-! ### Handlers -/

abbrev Handled := List Event × Conn

def Conn.refuse (c : Conn) (f : Fail) : Handled := ([.sent (.error f.1 f.2)],{ c with batchError := true })

def handleParse (body : Bytes) (len : Nat) (c : Conn) : Except Fault Handled := do
  match ← decodeParse body len with
  | .error f => .ok (c.refuse f)
  | .ok (name,sql) =>
    match c.prepared.findOrAlloc name with
    | none => .ok (c.refuse (fail "53000" "too many prepared statements"))
    | some p => .ok ([.tag 49],{ c with prepared := c.prepared.put p (name.take nameMax) sql })

def handleBind (body : Bytes) (len : Nat) (c : Conn) : Except Fault Handled := do
  match ← decodeBind body len with
  | .error f => .ok (c.refuse f)
  | .ok b =>
    match c.prepared.find b.stmt with
    | none => .ok (c.refuse (fail "26000" "Bind: prepared statement not found"))
    | some prep =>
      match c.portals.findOrAlloc b.portal with
      | none => .ok (c.refuse (fail "53000" "too many portals"))
      | some po => .ok ([.tag 50],{ c with portals := c.portals.put po (b.portal.take nameMax) ⟨prep,b.values⟩ })

def handleDescribe (len : Nat) (c : Conn) : Except Fault Handled :=
  .ok (if len < 1 then c.refuse (fail "08P01" "Describe: empty body") else ([.tag 110],c))

/-- The callback, if there is one. -/
def Env.run (env : Env) (sql : Bytes) (c : Conn) : Handled :=
  match env.query with
  | none => ([],c)
  | some query => (.call sql :: (query c.queries sql).map .sent,{ c with queries := c.queries + 1 })

def handleExecute (env : Env) (body : Bytes) (len : Nat) (c : Conn) : Except Fault Handled := do
  match ← decodeExecute body len with
  | none => .ok (c.refuse (fail "08P01" "Execute: malformed body"))
  | some portalName =>
    match c.portals.lookup portalName with
    | none => .ok (c.refuse (fail "26000" "Execute: portal not found"))
    | some po =>
      match c.prepared po.prep with
      | none => .ok (c.refuse (fail "26000" "Execute: portal has no statement"))
      | some prep => .ok (env.run (finalSql prep.2 po.values) c)

def handleClose (body : Bytes) (len : Nat) (c : Conn) : Except Fault Handled := do
  if len < 1 then .ok ([.tag 51],c)
  else
    let (kind,name) ← decodeClose body len
    if kind = 83 then
      .ok ([.tag 51],match c.prepared.find name with
        | none => c
        | some p => { c with prepared := c.prepared.release p })
    else if kind = 80 then
      .ok ([.tag 51],match c.portals.find name with
        | none => c
        | some p => { c with portals := c.portals.release p })
    else .ok ([.tag 51],c)

/-- The text of a Simple Query goes on to its NUL. -/
def querySql (body : Bytes) (len : Nat) : Except Fault Bytes :=
  if len = 0 then .ok [] else if (0 : UInt8) ∈ body then .ok (cstr body) else .error (.read body.length)

def handleQuery (env : Env) (body : Bytes) (len : Nat) (c : Conn) : Except Fault Handled := do
  let sql ← querySql body len
  match env.query with
  | none => .ok ([.sent (.error (ascii "0A000") (ascii "no query handler installed")),.ready 73],c)
  | some _ => .ok ((env.run sql c).1 ++ [.ready 73],(env.run sql c).2)

/-- An extended-protocol message is passed over after an error in its batch. -/
def unlessFailed (c : Conn) (handle : Except Fault Handled) : Except Fault Handled :=
  if c.batchError then .ok ([],c) else handle

/-- One message of the loop, Terminate aside. -/
def dispatch (env : Env) (type : UInt8) (body : Bytes) (len : Nat) (c : Conn) : Except Fault Handled :=
  if type = 81 then handleQuery env body len c
  else if type = 80 then unlessFailed c (handleParse body len c)
  else if type = 66 then unlessFailed c (handleBind body len c)
  else if type = 68 then unlessFailed c (handleDescribe len c)
  else if type = 69 then unlessFailed c (handleExecute env body len c)
  else if type = 67 then unlessFailed c (handleClose body len c)
  else if type = 83 then .ok ([.ready (if c.batchError then 69 else 73)],{ c with batchError := false })
  else if type = 72 then .ok ([],c)
  else if type = 70 ∨ type = 100 ∨ type = 102 then
    .ok ([.sent (.error (ascii "0A000") (ascii "FunctionCall / COPY not supported")),.ready 73],c)
  else .ok ([.sent (.error (ascii "08P01") (ascii "unknown protocol message")),.ready 73],c)

/-! ### The connection -/

/-- A message's type, body and what follows; nothing at the end of the stream or for a length out of range. -/
def readMessage (stream : Bytes) : Except Fault (Option (UInt8 × Bytes × Bytes)) := do
  match ← readFull 5 5 stream with
  | none => .ok none
  | some (hdr,stream) =>
    let type ← rd hdr 0
    let l ← be32 hdr 1
    if l < 4 ∨ l - 4 > bufMax then .ok none
    else
      match ← readFull (l - 4) (l - 4) stream with
      | none => .ok none
      | some (body,stream) => .ok (some (type,body,stream))

/-- The turns of the loop, so many at most. -/
def runQueryLoop (env : Env) : Nat → Nat → Conn → Bytes → Except Fault (List Event)
  | 0, _, _, _ => .ok []
  | fuel + 1, turn, c, stream => do
    if !env.running turn then .ok []
    else
      match ← readMessage stream with
      | none => .ok []
      | some (type,body,stream) =>
        if type = 88 then .ok []
        else
          let (events,c) ← dispatch env type body body.length c
          let later ← runQueryLoop env fuel (turn + 1) c stream
          .ok (events ++ later)

inductive Startup where
  | failed
  | ssl (stream : Bytes)
  | ready (body stream : Bytes)

def readStartup (env : Env) (stream : Bytes) : Except Fault Startup := do
  match ← readFull 4 4 stream with
  | none => .ok .failed
  | some (hdr,stream) =>
    let total ← be32 hdr 0
    if total < 8 ∨ total > bufMax then .ok .failed
    else
      match ← readFull startupCap (total - 4) stream with
      | none => .ok .failed
      | some (body,stream) =>
        let code ← be32 body 0
        if code = sslRequest then .ok (if env.sslReply then .ssl stream else .failed)
        else if code = cancelRequest then .ok .failed
        else if code ≠ protocolV3 then .ok .failed
        else .ok (.ready body stream)

/-- User and database, so many pairs at most. -/
def startupPairs (body : Bytes) (len : Nat) : Nat → Nat → Bytes × Bytes → Except Fault (Bytes × Bytes)
  | 0, _, found => .ok found
  | fuel + 1, key, found => do
    if key < len then
      if (← rd body key) ≠ 0 then
        let keyEnd ← scanTo body len key
        if keyEnd ≥ len then .ok found
        else
          let valEnd ← scanTo body len (keyEnd + 1)
          if valEnd ≥ len then .ok found
          else
            let value := (slice body (keyEnd + 1) valEnd).take nameMax
            startupPairs body len fuel (valEnd + 1)
              (if slice body key keyEnd = ascii "user" then (value,found.2)
                else if slice body key keyEnd = ascii "database" then (found.1,value)
                else found)
      else .ok found
    else .ok found

def parseStartupKv (body : Bytes) (len : Nat) : Except Fault (Bytes × Bytes) := do
  let (user,database) ← startupPairs body len len 4 ([],[])
  .ok (user,if database = [] then user else database)

/-- What follows the password message of a client let in. -/
def handlePassword (env : Env) (user database : Bytes) (stream : Bytes) : Except Fault (Option Bytes) := do
  match ← readFull 5 5 stream with
  | none => .ok none
  | some (hdr,stream) =>
    if (← rd hdr 0) ≠ 112 then .ok none
    else
      let l ← be32 hdr 1
      if l < 5 ∨ l - 4 > bufMax then .ok none
      else
        match ← readFull (l - 4 + 1) (l - 4) stream with
        | none => .ok none
        | some (pw,stream) => .ok (if env.authenticate user (cstr pw) database then some stream else none)

/-- The connection after its start-up message. -/
def session (env : Env) (body stream : Bytes) : Except Fault (List Event) := do
  let (user,database) ← parseStartupKv body body.length
  if user = [] then .ok [.sent (.error (ascii "28000") (ascii "missing user in startup"))]
  else if !env.askPassword then .ok []
  else
    match ← handlePassword env user database stream with
    | none => .ok [.sent (.error (ascii "28P01") (ascii "password authentication failed"))]
    | some stream =>
      if !env.greeting then .ok []
      else
        let events ← runQueryLoop env (stream.length + 1) 0 Conn.init stream
        .ok (.ready 73 :: events)

/-- The start-up message after an SSL request. -/
def afterProbe (env : Env) (stream : Bytes) : Except Fault (List Event) := do
  match ← readStartup env stream with
  | .ready body stream => session env body stream
  | _ => .ok []

def connectionThread (env : Env) (stream : Bytes) : Except Fault (List Event) := do
  match ← readStartup env stream with
  | .failed => .ok []
  | .ready body stream => session env body stream
  | .ssl stream => afterProbe env stream

end Napastak.PgWire
