import Napastak.Decimal
import Napastak.Val
import Mathlib.Data.Rat.Defs
import Mathlib.Algebra.Order.Field.Rat
import Mathlib.Tactic.FieldSimp
import Mathlib.Tactic.Ring

/-! Fixed-point decimals in a 128-bit integer, as the evaluator of `api.c` computes them. -/
namespace Napastak.DecArith
open Query (blank)

/-- What is left of a result in `__int128`. -/
def int128 (x : Int) : Int := (x + 2 ^ 127) % 2 ^ 128 - 2 ^ 127

/-- The value is `mant / 10^scale`. -/
structure Dec where
  mant : Int
  scale : Nat
  deriving DecidableEq, Repr

/-- The loop of `dec_parse`: the number so far, the digits behind the point, all digits, and whether the point has been. -/
def parseLoop : Bytes → Int → Nat → Nat → Bool → Option (Int × Nat × Nat)
  | [], m, scale, ndig, _ => some (m,scale,ndig)
  | c :: s, m, scale, ndig, dot =>
    if c = 46 then if dot then none else parseLoop s m scale ndig true
    else if isdigit c = false then none
    else if 30 < ndig + 1 then none
    else parseLoop s (int128 (int128 (m * 10) + (c.toNat - 48 : Nat))) (if dot then scale + 1 else scale) (ndig + 1) dot

/-- The sign, and what stands behind it. -/
def signed : Bytes → Bool × Bytes
  | 43 :: s => (false,s)
  | 45 :: s => (true,s)
  | s => (false,s)

/-- `dec_parse` of a text without zero bytes; `none` is a number that is not `ok`. -/
def decParse (s : Bytes) : Option Dec :=
  if s = [] then none
  else
    let (neg,p) := signed (s.dropWhile blank)
    match parseLoop p 0 0 0 false with
    | none => none
    | some (m,scale,ndig) => if ndig = 0 then none else some ⟨if neg then int128 (-m) else m,scale⟩

/-- As many times `ma *= 10`. -/
def tenTimes : Nat → Int → Int
  | 0, m => m
  | n + 1, m => tenTimes n (int128 (m * 10))

inductive Op
  | add | sub | mul
  deriving DecidableEq, Repr

/-- `dec_arith`; nothing stands for a failure. -/
def decArith (a b : Dec) : Op → Option Dec
  | .mul => if 30 < a.scale + b.scale then none else some ⟨int128 (a.mant * b.mant),a.scale + b.scale⟩
  | op =>
    let s := if b.scale < a.scale then a.scale else b.scale
    if 30 < s then none
    else
      let ma := tenTimes (s - a.scale) a.mant
      let mb := tenTimes (s - b.scale) b.mant
      some ⟨if op = .add then int128 (ma + mb) else int128 (ma - mb),s⟩

/-- The digits of a positive number, the lowest first; the buffer has 48 bytes. -/
def lowDigits : Nat → Nat → Bytes
  | 0, _ => []
  | n + 1, m => if m = 0 then [] else digit (m % 10) :: lowDigits n (m / 10)

/-- The digits with zeros for an integer part. -/
def decDigits (d : Dec) : Bytes :=
  let m := if d.mant < 0 then int128 (-d.mant) else d.mant
  let ds := if m = 0 then [48] else lowDigits 48 m.toNat
  ds ++ List.replicate (d.scale + 1 - ds.length) 48

/-- `dec_str`. -/
def decStr (d : Dec) : Bytes :=
  let ds := decDigits d
  let frac := (ds.take d.scale).dropWhile (· = 48)
  let buf := (if d.mant < 0 then [45] else []) ++ (ds.drop d.scale).reverse ++ if frac = [] then [] else 46 :: frac.reverse
  if buf = [45,48] then [48] else buf

/-! ### What is meant -/

/-- The number a decimal text denotes: blanks, a sign, digits with at most one point and at least one digit. -/
def numeral (s : Bytes) : Option ℚ :=
  let (neg,p) := signed (s.dropWhile blank)
  let int := p.takeWhile isdigit
  let frac := (p.dropWhile isdigit).drop 1
  if (p.dropWhile isdigit).head?.getD 46 = 46 ∧ frac.all isdigit = true ∧ int ++ frac ≠ [] then
    some ((if neg then -1 else 1) * digitsValue 0 (int ++ frac) / 10 ^ frac.length)
  else none

def Op.apply : Op → ℚ → ℚ → ℚ
  | .add, x, y => x + y
  | .sub, x, y => x - y
  | .mul, x, y => x * y

def Dec.value (d : Dec) : ℚ := d.mant / 10 ^ d.scale

/-- `__int128`. -/
def InRange (x : Int) : Prop := -2 ^ 127 ≤ x ∧ x < 2 ^ 127

/-- The products, sums and differences of `dec_arith`, as they are meant. -/
def computed (a b : Dec) : Op → List Int
  | .mul => [a.mant * b.mant]
  | op =>
    let s := max a.scale b.scale
    let ma := a.mant * 10 ^ (s - a.scale)
    let mb := b.mant * 10 ^ (s - b.scale)
    ((List.range (s - a.scale)).map fun i => a.mant * 10 ^ (i + 1)) ++ ((List.range (s - b.scale)).map fun i => b.mant * 10 ^ (i + 1)) ++
      [if op = .add then ma + mb else ma - mb]

/-- No product or sum leaves the integer, and the text denotes the result. -/
def Right (s t : Bytes) (op : Op) : Prop :=
  ∀ a b out, decParse s = some a → decParse t = some b → decArith a b op = some out →
    (∀ x ∈ computed a b op, InRange x) ∧ ∃ x y, numeral s = some x ∧ numeral t = some y ∧ numeral (decStr out) = some (op.apply x y)

/-- What the code can hold. -/
def Representable (d : Dec) : Prop := InRange d.mant ∧ d.scale ≤ 30

/-- The text reads back as a decimal with the same value. -/
def ReadsBack (d : Dec) : Prop := ∃ e, decParse (decStr d) = some e ∧ e.value = d.value

end Napastak.DecArith
