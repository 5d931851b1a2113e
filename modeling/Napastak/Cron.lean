import Napastak.Decimal
import Napastak.Lib.Calendar

/-! `cron_next` of the scheduler: the fields of an expression as lists of values, and the search minute by
minute over a broken-down time. `none` is a run that writes outside the 60 values of a field or overflows an
`int`. -/
namespace Napastak.Cron
open Calendar

/-- `atoi`. -/
def atoi (s : Bytes) : Int := (strtoll s).toInt.bmod (2 ^ 32)

/-- The pieces between separators. -/
def pieces (sep : UInt8) : Bytes → List Bytes
  | [] => [[]]
  | c :: cs =>
    if c = sep then [] :: pieces sep cs
    else match pieces sep cs with
      | [] => [[c]]
      | p :: ps => (c :: p) :: ps

/-- `strtok`, which passes over empty pieces. -/
def strtok (sep : UInt8) (s : Bytes) : List Bytes := (pieces sep s).filter (· ≠ [])

def comma : UInt8 := 44
def dash : UInt8 := 45
def slash : UInt8 := 47

/-- What follows the first `c`, as `strchr(s,c) + 1`. -/
def afterChar (c : UInt8) (s : Bytes) : Option Bytes :=
  match s.dropWhile (· ≠ c) with
  | [] => none
  | _ :: rest => some rest

/-- `for(int v=a; v<=b; v+=step)`. -/
def steps (a b step : Int) : Option (List Int) :=
  if b < a then some []
  else
    let n := (b - a) / step
    if 2 ^ 31 ≤ a + step * n + step then none else some ((List.range (n.toNat + 1)).map fun i : Nat => a + step * i)

def parseItem (lo hi : Int) (tok : Bytes) : Option (List Int) :=
  match afterChar slash tok with
  | some rest =>
    let step := atoi rest
    steps (atoi tok) hi (if step < 1 then 1 else step)
  | none =>
    match afterChar dash tok with
    | some rest => steps (atoi tok) (atoi rest) 1
    | none => some (if lo ≤ atoi tok ∧ atoi tok ≤ hi then [atoi tok] else [])

/-- The room of `CronField.vals`. -/
def maxVals : Nat := 60

def pushAll (vals more : List Int) : Option (List Int) :=
  if maxVals < vals.length + more.length then none else some (vals ++ more)

/-- `parse_field`. -/
def parseField (s : Bytes) (lo hi : Int) : Option (List Int) :=
  if s = ascii "*" then (steps lo hi 1).bind (pushAll [])
  else (strtok comma (s.take 63)).foldlM (fun vals tok => (parseItem lo hi tok).bind (pushAll vals)) []

/-- The values of the five fields. -/
structure Schedule where
  minute : List Int
  hour : List Int
  mday : List Int
  month : List Int
  wday : List Int
  deriving DecidableEq, Repr

/-- `sscanf` with `n` times `%63s`. -/
def scanWords : Nat → Bytes → Option (List Bytes)
  | 0, _ => some []
  | n + 1, s =>
    let s := s.dropWhile isspace
    let w := (s.takeWhile (!isspace ·)).take 63
    if w = [] then none else (scanWords n (s.drop w.length)).map (w :: ·)

structure Tm where
  date : Date
  hour : Int
  min : Int
  wday : Int
  deriving DecidableEq, Repr

def gmtime (t : Int) : Tm := ⟨dateOf (t / 86400),t % 86400 / 3600,t % 3600 / 60,weekday (t / 86400)⟩

/-- `timegm`, with the seconds at zero. -/
def timegm (tm : Tm) : Int := dayOf tm.date * 86400 + tm.hour * 3600 + tm.min * 60

def Schedule.has (s : Schedule) (tm : Tm) : Bool :=
  s.month.contains tm.date.month && s.mday.contains tm.date.mday && s.wday.contains tm.wday && s.hour.contains tm.hour &&
    s.minute.contains tm.min

/-- The next minute of the search. -/
def nextMinute (tm : Tm) : Tm :=
  let tm := {tm with min := tm.min + 1}
  let tm := if 60 ≤ tm.min then {tm with min := 0, hour := tm.hour + 1} else tm
  let tm := if 24 ≤ tm.hour then {tm with hour := 0, date := {tm.date with mday := tm.date.mday + 1}} else tm
  if 28 < tm.date.mday then gmtime (timegm tm) else tm

def search (s : Schedule) : Nat → Tm → Int
  | 0, _ => -1
  | n + 1, tm => if s.has tm then timegm tm else search s n (nextMinute tm)

def alias_ (expr : Bytes) : Bytes :=
  if expr = ascii "@hourly" then ascii "0 * * * *"
  else if expr = ascii "@daily" then ascii "0 0 * * *"
  else if expr = ascii "@weekly" then ascii "0 0 * * 0"
  else if expr = ascii "@monthly" then ascii "0 0 1 * *"
  else if expr = ascii "@yearly" then ascii "0 0 1 1 *"
  else expr

/-- The expanded fields of an expression; the outer `none` is a missing field. -/
def schedule (expr : Bytes) : Option (Option Schedule) :=
  match scanWords 5 expr with
  | some [min,hr,dom,mon,dow] => some do
    let min ← parseField min 0 59
    let hr ← parseField hr 0 23
    let dom ← parseField dom 1 31
    let mon ← parseField mon 1 12
    let dow ← parseField dow 0 6
    some ⟨min,hr,dom,mon,dow⟩
  | _ => none

def horizon : Nat := 527040

def cronNext (expr : Bytes) (after : Int) : Option Int :=
  if alias_ expr = ascii "@reboot" then some after
  else match schedule (alias_ expr) with
    | none => some (-1)
    | some s => s.map fun s => search s horizon (gmtime (after + 60))

/-! ### What an expression means -/

def number (s : Bytes) : Option Int := if s ≠ [] ∧ s.all isdigit then some (digitsValue 0 s) else none

/-- A `*`, a number or a range, as its first and last value; a number before a step goes on to the end. -/
def span (lo hi : Int) (stepped : Bool) (base : Bytes) : Option (Int × Int) :=
  match pieces dash base with
  | [s] =>
    if s = ascii "*" then some (lo,hi)
    else (number s).bind fun a => if lo ≤ a ∧ a ≤ hi then some (a,if stepped then hi else a) else none
  | [s,t] => (number s).bind fun a => (number t).bind fun b => if lo ≤ a ∧ a ≤ b ∧ b ≤ hi then some (a,b) else none
  | _ => none

/-- The values of one item of a list. -/
def itemValues (lo hi : Int) (item : Bytes) : Option (List Int) :=
  match pieces slash item with
  | [base] => (span lo hi false base).map fun s => (List.range ((s.2 - s.1).toNat + 1)).map fun i : Nat => s.1 + i
  | [base,step] => (span lo hi true base).bind fun s => (number step).bind fun n =>
      if 1 ≤ n then some ((List.range (((s.2 - s.1) / n).toNat + 1)).map fun i : Nat => s.1 + n * i) else none
  | _ => none

def fieldValues (lo hi : Int) (field : Bytes) : Option (List Int) :=
  ((pieces comma field).mapM (itemValues lo hi)).map List.flatten

def wordsGo : Bytes → List Bytes
  | [] => [[]]
  | c :: cs =>
    if isspace c then [] :: wordsGo cs
    else match wordsGo cs with
      | [] => [[c]]
      | w :: ws => (c :: w) :: ws

/-- The schedule of a valid expression of five fields. -/
def meaning (expr : Bytes) : Option Schedule :=
  match (wordsGo expr).filter (· ≠ []) with
  | [min,hr,dom,mon,dow] => do
    let min ← fieldValues 0 59 min
    let hr ← fieldValues 0 23 hr
    let dom ← fieldValues 1 31 dom
    let mon ← fieldValues 1 12 mon
    let dow ← fieldValues 0 6 dow
    some ⟨min,hr,dom,mon,dow⟩
  | _ => none

/-- The time lies in a minute whose five parts are all listed. -/
def Schedule.matches (s : Schedule) (t : Int) : Bool := s.has (gmtime t)

/-- The first minute after `start` that matches. -/
structure NextRun (s : Schedule) (start m : Int) : Prop where
  minute : 60 ∣ m
  later : start < m
  hit : s.matches m
  first : ∀ m', 60 ∣ m' → start < m' → m' < m → s.matches m' = false

/-! ### Which minutes the search looks at, and with which day of the week -/

def firstMinute (start : Int) : Int := (start + 60) / 60 * 60

/-- The day whose day of the week the search still holds on `day`: it is only worked out again after the 28th,
and when a month is over. -/
def seenDay (day0 day : Int) : Int :=
  if 28 < (dateOf day).mday then day else max day0 (day - (dateOf day).mday + 1)

/-- The minute as the search judges it. -/
def Schedule.judges (s : Schedule) (start t : Int) : Bool :=
  s.has {gmtime t with wday := weekday (seenDay (firstMinute start / 86400) (t / 86400))}

end Napastak.Cron
