import Napastak.Csv
import Napastak.Decimal
import Napastak.TextencKept

/-! The CSV connector: a batch written to a file, and the file read back page by page. Writer and reader
agree on quoting; they part where a text is written without quotes that the reader takes for NULL, and where
the reader takes the bytes of the file for another encoding. -/
namespace Napastak.CsvFile
open Store (quote cr lf cstr comma quoted BareOf joinWith WrittenOf)
open Csv (splitLineRfc4180Q Separates)
open Textenc (TextEnc textencBomLen textencToUtf8 textencDetect)

abbrev Cell := Option Bytes

/-- `BATCH_SIZE`, the rows of a page. -/
def pageRows : Nat := 8192

/-- The size of the line buffers. -/
def lineCap : Nat := 65536

/-- The name of an encoding; `auto` and unknown names ask for the guess. -/
def textencParse (name : Bytes) : TextEnc :=
  let is := fun s : String => strcasecmp name (ascii s) = 0
  if is "utf-8" ∨ is "utf8" then .utf8
  else if is "utf-16le" ∨ is "utf16le" then .utf16le
  else if is "utf-16be" ∨ is "utf16be" then .utf16be
  else if is "cp1251" ∨ is "windows-1251" ∨ is "win1251" ∨ is "1251" then .cp1251
  else if is "cp866" ∨ is "ibm866" ∨ is "866" then .cp866
  else if is "koi8-r" ∨ is "koi8r" ∨ is "koi8" then .koi8r
  else .unknown

/-- The values of the configuration's `delimiter`, `header` and `encoding`. -/
structure CsvCfg where
  delimiter : UInt8 := comma
  hasHeader : Bool := true
  encoding : Bytes := []

structure CsvCtx where
  delimiter : UInt8
  hasHeader : Bool
  enc : TextEnc
  /-- The column names; none where the file could not be read. -/
  schema : Option (List Bytes)

def csvSniffEncoding (file cfgEnc : Bytes) : TextEnc :=
  let want := textencParse cfgEnc
  if want ≠ .unknown then want
  else if file.take lineCap = [] then .utf8 else textencDetect (file.take lineCap)

/-- The mark at the front is taken off every record. -/
def csvToUtf8 (enc : TextEnc) (line : Bytes) : Bytes :=
  let line := line.drop (textencBomLen line)
  if enc = .utf8 ∨ enc = .unknown then line else (textencToUtf8 line enc).1

/-- `split_line_ex_q`, which the gateway's `split_line_rfc4180_q` repeats word for word. -/
def splitLineExQ (delim : UInt8) (line : Bytes) : Option (List (Bytes × Bool)) := splitLineRfc4180Q delim line

/-- Whether the scan stands inside quotes behind a byte. -/
def turned (inQ : Bool) (c : UInt8) : Bool := if c = quote then !inQ else inQ

/-- What `csv_read_record` puts into its buffer after `n` bytes, and the rest of the file; the byte that
finds no room is gone. -/
def readGo (n : Nat) (inQ : Bool) : Bytes → Bytes × Bytes
  | [] => ([],[])
  | c :: s =>
    if n + 2 ≥ lineCap then ([],s)
    else if c = lf && !turned inQ c then ([lf],s)
    else
      let r := readGo (n + 1) (turned inQ c) s
      (c :: r.1,r.2)

def csvReadRecord (f : Bytes) : Option (Bytes × Bytes) :=
  let r := readGo 0 false f
  if r.1 = [] then none else some (cstr r.1,r.2)

def csvCreate (cfg : CsvCfg) (file : Bytes) : CsvCtx :=
  let enc := csvSniffEncoding file cfg.encoding
  let names := if enc = .utf16le ∨ enc = .utf16be then none else do
    let (line,_) ← csvReadRecord file
    let hdrs ← splitLineExQ cfg.delimiter (csvToUtf8 enc line)
    some (if cfg.hasHeader then hdrs.map (·.1) else (List.range hdrs.length).map fun i => ascii "col" ++ decimal i)
  ⟨cfg.delimiter,cfg.hasHeader,enc,names⟩

/-! ### Reading -/

/-- Without quotes an empty field and the words `null` and `na` are NULL. -/
def nullWord (v : Bytes) : Bool := v = [] ∨ strcasecmp v (ascii "null") = 0 ∨ strcasecmp v (ascii "na") = 0

def readCell (v : Bytes × Bool) : Cell := if (!v.2 && nullWord v.1) ∨ v.1 = nullSentinel then none else some v.1

/-- The fields of a record under the columns; missing ones are NULL, one too many is an error. -/
def readRow (ncols : Nat) (vals : List (Bytes × Bool)) : Option (List Cell) :=
  if ncols < vals.length then none else some ((List.range ncols).map fun c => vals[c]?.bind readCell)

def readRecord (ctx : CsvCtx) (ncols : Nat) (line : Bytes) : Option (List Cell) :=
  (splitLineExQ ctx.delimiter (csvToUtf8 ctx.enc line)).bind (readRow ncols)

def readRows (ctx : CsvCtx) (ncols : Nat) : Nat → Bytes → Option (List (List Cell))
  | 0, _ => some []
  | room + 1, f =>
    match csvReadRecord f with
    | none => some []
    | some (line,rest) => do
      let row ← readRecord ctx ncols line
      let rows ← readRows ctx ncols room rest
      some (row :: rows)

def skipRecords : Nat → Bytes → Bytes
  | 0, f => f
  | n + 1, f =>
    match csvReadRecord f with
    | none => f
    | some (_,rest) => skipRecords n rest

/-- A page from a cursor, and whether it is the last one. -/
def csvReadBatch (ctx : CsvCtx) (file : Bytes) (start : Nat) : Option (List (List Cell) × Bool) := do
  let names ← ctx.schema
  let body := if ctx.hasHeader then skipRecords 1 file else file
  let rows ← readRows ctx names.length pageRows (skipRecords start body)
  some (rows,decide (rows.length < pageRows))

/-- Page after page, each from where the one before ended, up to the last. -/
def readPages (ctx : CsvCtx) (file : Bytes) : Nat → Nat → Option (List (List Cell))
  | 0, _ => none
  | fuel + 1, start => do
    let (rows,last) ← csvReadBatch ctx file start
    if last then some rows
    else
      let more ← readPages ctx file fuel (start + rows.length)
      some (rows ++ more)

/-! ### Writing -/

inductive SinkMode where
  | append | overwrite
  deriving DecidableEq, Repr

def needQ (delim : UInt8) (v : Bytes) : Bool := v.any fun c => c = delim ∨ c = quote ∨ c = lf ∨ c = cr

def csvWriteField (delim : UInt8) (v : Bytes) : Bytes := if needQ delim v then quoted v else v

def csvCellText : Cell → Bytes
  | none => []
  | some s => if s = nullSentinel then [] else s

def writeRecord (delim : UInt8) (vs : List Bytes) : Bytes := joinWith delim (vs.map (csvWriteField delim)) ++ [lf]

def rowRecord (delim : UInt8) (row : List Cell) : Bytes := writeRecord delim (row.map csvCellText)

/-- The file after the write, from what stood in it. -/
def csvWriteBatch (delimiter : UInt8) (mode : SinkMode) (old : Bytes) (schema : Option (List Bytes))
    (rows : List (List Cell)) : Bytes :=
  let delim := if delimiter ≠ 0 then delimiter else comma
  let writeHeader := mode = .overwrite ∨ old = []
  (if mode = .overwrite then [] else old) ++
    (match schema with
      | some names => if writeHeader then writeRecord delim names else []
      | none => []) ++
    rows.flatMap (rowRecord delim)

end Napastak.CsvFile
