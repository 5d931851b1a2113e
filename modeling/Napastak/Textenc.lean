import Napastak.CStr
import Napastak.Lib.Utf8

/-! Text files brought to UTF-8: the guess of the encoding from the first 65536 bytes, and the
conversion. Well-formed UTF-8 is left alone unless that probe ends inside a character and reads as
Cyrillic in a single-byte code page. -/
namespace Napastak.Textenc
open Utf8 (tail WellFormed)
open String (utf8EncodeChar)

inductive TextEnc where
  | unknown | utf8 | utf16le | utf16be | cp1251 | cp866 | koi8r
  deriving DecidableEq, Repr

/-- The characters of the bytes from 0x80; 0 where a byte has none. -/
def tableCp1251 : List Nat :=
  [0x0402,0x0403,0x201A,0x0453,0x201E,0x2026,0x2020,0x2021,
   0x20AC,0x2030,0x0409,0x2039,0x040A,0x040C,0x040B,0x040F,
   0x0452,0x2018,0x2019,0x201C,0x201D,0x2022,0x2013,0x2014,
   0x0000,0x2122,0x0459,0x203A,0x045A,0x045C,0x045B,0x045F,
   0x00A0,0x040E,0x045E,0x0408,0x00A4,0x0490,0x00A6,0x00A7,
   0x0401,0x00A9,0x0404,0x00AB,0x00AC,0x00AD,0x00AE,0x0407,
   0x00B0,0x00B1,0x0406,0x0456,0x0491,0x00B5,0x00B6,0x00B7,
   0x0451,0x2116,0x0454,0x00BB,0x0458,0x0405,0x0455,0x0457,
   0x0410,0x0411,0x0412,0x0413,0x0414,0x0415,0x0416,0x0417,
   0x0418,0x0419,0x041A,0x041B,0x041C,0x041D,0x041E,0x041F,
   0x0420,0x0421,0x0422,0x0423,0x0424,0x0425,0x0426,0x0427,
   0x0428,0x0429,0x042A,0x042B,0x042C,0x042D,0x042E,0x042F,
   0x0430,0x0431,0x0432,0x0433,0x0434,0x0435,0x0436,0x0437,
   0x0438,0x0439,0x043A,0x043B,0x043C,0x043D,0x043E,0x043F,
   0x0440,0x0441,0x0442,0x0443,0x0444,0x0445,0x0446,0x0447,
   0x0448,0x0449,0x044A,0x044B,0x044C,0x044D,0x044E,0x044F]

def tableCp866 : List Nat :=
  [0x0410,0x0411,0x0412,0x0413,0x0414,0x0415,0x0416,0x0417,
   0x0418,0x0419,0x041A,0x041B,0x041C,0x041D,0x041E,0x041F,
   0x0420,0x0421,0x0422,0x0423,0x0424,0x0425,0x0426,0x0427,
   0x0428,0x0429,0x042A,0x042B,0x042C,0x042D,0x042E,0x042F,
   0x0430,0x0431,0x0432,0x0433,0x0434,0x0435,0x0436,0x0437,
   0x0438,0x0439,0x043A,0x043B,0x043C,0x043D,0x043E,0x043F,
   0x2591,0x2592,0x2593,0x2502,0x2524,0x2561,0x2562,0x2556,
   0x2555,0x2563,0x2551,0x2557,0x255D,0x255C,0x255B,0x2510,
   0x2514,0x2534,0x252C,0x251C,0x2500,0x253C,0x255E,0x255F,
   0x255A,0x2554,0x2569,0x2566,0x2560,0x2550,0x256C,0x2567,
   0x2568,0x2564,0x2565,0x2559,0x2558,0x2552,0x2553,0x256B,
   0x256A,0x2518,0x250C,0x2588,0x2584,0x258C,0x2590,0x2580,
   0x0440,0x0441,0x0442,0x0443,0x0444,0x0445,0x0446,0x0447,
   0x0448,0x0449,0x044A,0x044B,0x044C,0x044D,0x044E,0x044F,
   0x0401,0x0451,0x0404,0x0454,0x0407,0x0457,0x040E,0x045E,
   0x00B0,0x2219,0x00B7,0x221A,0x2116,0x00A4,0x25A0,0x00A0]

def tableKoi8r : List Nat :=
  [0x2500,0x2502,0x250C,0x2510,0x2514,0x2518,0x251C,0x2524,
   0x252C,0x2534,0x253C,0x2580,0x2584,0x2588,0x258C,0x2590,
   0x2591,0x2592,0x2593,0x2320,0x25A0,0x2219,0x221A,0x2248,
   0x2264,0x2265,0x00A0,0x2321,0x00B0,0x00B2,0x00B7,0x00F7,
   0x2550,0x2551,0x2552,0x0451,0x2553,0x2554,0x2555,0x2556,
   0x2557,0x2558,0x2559,0x255A,0x255B,0x255C,0x255D,0x255E,
   0x255F,0x2560,0x2561,0x0401,0x2562,0x2563,0x2564,0x2565,
   0x2566,0x2567,0x2568,0x2569,0x256A,0x256B,0x256C,0x00A9,
   0x044E,0x0430,0x0431,0x0446,0x0434,0x0435,0x0444,0x0433,
   0x0445,0x0438,0x0439,0x043A,0x043B,0x043C,0x043D,0x043E,
   0x043F,0x044F,0x0440,0x0441,0x0442,0x0443,0x0436,0x0432,
   0x044C,0x044B,0x0437,0x0448,0x044D,0x0449,0x0447,0x044A,
   0x042E,0x0410,0x0411,0x0426,0x0414,0x0415,0x0424,0x0413,
   0x0425,0x0418,0x0419,0x041A,0x041B,0x041C,0x041D,0x041E,
   0x041F,0x042F,0x0420,0x0421,0x0422,0x0423,0x0416,0x0412,
   0x042C,0x042B,0x0417,0x0428,0x042D,0x0429,0x0427,0x042A]

def textencBomLen (data : Bytes) : Nat :=
  if [0xEF,0xBB,0xBF].isPrefixOf data then 3
  else if [0xFF,0xFE].isPrefixOf data then 2
  else if [0xFE,0xFF].isPrefixOf data then 2
  else 0

/-- The number of tails and the payload of a first byte from 0x80 on. -/
def lead (c : UInt8) : Option (Nat × Nat) :=
  if c &&& 0xE0 = 0xC0 then some (1,(c &&& 0x1F).toNat)
  else if c &&& 0xF0 = 0xE0 then some (2,(c &&& 0x0F).toNat)
  else if c &&& 0xF8 = 0xF0 then some (3,(c &&& 0x07).toNat)
  else none

/-- The character after so many tails; nothing where the text ends before or another byte stands there. -/
def conts : Nat → Nat → Bytes → Option Nat
  | 0, cp, _ => some cp
  | _ + 1, _, [] => none
  | k + 1, cp, cc :: s => if tail cc then conts k (cp <<< 6 ||| (cc &&& 0x3F).toNat) s else none

/-- Longer than needed, a surrogate, or beyond Unicode. -/
def illegal (extra cp : Nat) : Bool :=
  (extra = 1 ∧ cp < 0x80) ∨ (extra = 2 ∧ cp < 0x800) ∨ (extra = 3 ∧ cp < 0x10000) ∨ cp > 0x10FFFF ∨
    (cp ≥ 0xD800 ∧ cp ≤ 0xDFFF)

def textencIsUtf8 : Bytes → Bool
  | [] => true
  | c :: s =>
    if c < 0x80 then textencIsUtf8 s
    else
      match lead c with
      | none => false
      | some (extra,cp) =>
        match conts extra cp s with
        | none => false
        | some cp => !illegal extra cp && textencIsUtf8 (s.drop extra)
termination_by s => s.length
decreasing_by all_goals simp_wf <;> omega

/-- The character of a byte in a code page. -/
def lookup (tbl : List Nat) (b : UInt8) : Nat := tbl.getD (b.toNat - 0x80) 0

theorem lookupMem {tbl : List Nat} {b : UInt8} (some_ : lookup tbl b ≠ 0) : lookup tbl b ∈ tbl := by
  rw [lookup,List.getD_eq_getElem?_getD] at some_ ⊢
  cases at_ : tbl[b.toNat - 0x80]? with
  | none => exact absurd (by rw [at_]; rfl) some_
  | some u => exact List.mem_of_getElem? at_

def byteScore (tbl : List Nat) (b : UInt8) : Int :=
  if b < 0x80 then 0
  else
    let u := lookup tbl b
    if u = 0 then -4
    else if u ≥ 0x0410 ∧ u ≤ 0x044F then 3
    else if u = 0x0401 ∨ u = 0x0451 then 3
    else if u ≥ 0x2500 ∧ u ≤ 0x25FF then -3
    else -1

def encScore (tbl : List Nat) (s : Bytes) : Int := s.foldl (fun score b => score + byteScore tbl b) 0

def probeSize : Nat := 65536

def textencDetect (data : Bytes) : TextEnc :=
  if [0xEF,0xBB,0xBF].isPrefixOf data then .utf8
  else if [0xFF,0xFE].isPrefixOf data then .utf16le
  else if [0xFE,0xFF].isPrefixOf data then .utf16be
  else
    let probe := data.take probeSize
    if !probe.any fun b => b ≥ 0x80 then .utf8
    else if textencIsUtf8 probe then .utf8
    else
      let s1251 := encScore tableCp1251 probe
      let s866 := encScore tableCp866 probe
      let skoi := encScore tableKoi8r probe
      if s1251 ≥ s866 ∧ s1251 ≥ skoi then if s1251 > 0 then .cp1251 else .unknown
      else if s866 ≥ skoi then if s866 > 0 then .cp866 else .unknown
      else if skoi > 0 then .koi8r else .unknown

def putUtf8 (cp : Nat) : Bytes :=
  if cp < 0x80 then [UInt8.ofNat cp]
  else if cp < 0x800 then [UInt8.ofNat (0xC0 ||| cp >>> 6),UInt8.ofNat (0x80 ||| (cp &&& 0x3F))]
  else if cp < 0x10000 then
    [UInt8.ofNat (0xE0 ||| cp >>> 12),UInt8.ofNat (0x80 ||| (cp >>> 6 &&& 0x3F)),UInt8.ofNat (0x80 ||| (cp &&& 0x3F))]
  else
    [UInt8.ofNat (0xF0 ||| cp >>> 18),UInt8.ofNat (0x80 ||| (cp >>> 12 &&& 0x3F)),
      UInt8.ofNat (0x80 ||| (cp >>> 6 &&& 0x3F)),UInt8.ofNat (0x80 ||| (cp &&& 0x3F))]

/-- A byte without a character becomes U+FFFD. -/
def fromSingleByte (tbl : List Nat) (s : Bytes) : Bytes :=
  s.flatMap fun b =>
    if b < 0x80 then [b]
    else
      let u := lookup tbl b
      putUtf8 (if u = 0 then 0xFFFD else u)

def unit16 (little : Bool) (a b : UInt8) : Nat :=
  if little then a.toNat ||| b.toNat <<< 8 else a.toNat <<< 8 ||| b.toNat

def fromUtf16 (little : Bool) : Bytes → Bytes
  | a :: b :: s =>
    let u := unit16 little a b
    match s with
    | c :: d :: s' =>
      let lo := unit16 little c d
      if (u ≥ 0xD800 ∧ u ≤ 0xDBFF) ∧ lo ≥ 0xDC00 ∧ lo ≤ 0xDFFF then
        putUtf8 (0x10000 + ((u - 0xD800) <<< 10) + (lo - 0xDC00)) ++ fromUtf16 little s'
      else putUtf8 u ++ fromUtf16 little (c :: d :: s')
    | s => putUtf8 u ++ fromUtf16 little s
  | _ => []

/-- The text and the encoding it was read in; `unknown` asks for the guess. -/
def textencToUtf8 (data : Bytes) (enc : TextEnc) : Bytes × TextEnc :=
  let p := data.drop (textencBomLen data)
  let enc := if enc = .unknown then textencDetect data else enc
  (match enc with
    | .cp1251 => fromSingleByte tableCp1251 p
    | .cp866 => fromSingleByte tableCp866 p
    | .koi8r => fromSingleByte tableKoi8r p
    | .utf16le => fromUtf16 true p
    | .utf16be => fromUtf16 false p
    | _ => p,
    enc)

end Napastak.Textenc
