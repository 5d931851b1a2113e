import Mathlib.Data.Int.Order.Basic

/-! The proleptic Gregorian calendar over all days, counted from 1970-01-01: the day of a date and the date
of a day. A year begins in March here, so that the leap day is its last. -/
namespace Napastak.Calendar

structure Date where
  year : Int
  month : Int
  mday : Int
  deriving DecidableEq, Repr

/-- The day of a date; the day of the month may lie outside the month. -/
def dayOf (date : Date) : Int :=
  let y := if date.month ≤ 2 then date.year - 1 else date.year
  let m := if date.month ≤ 2 then date.month + 12 else date.month
  365 * y + y / 4 - y / 100 + y / 400 + (153 * m - 457) / 5 + date.mday - 719469

/-- A day of a 400 year cycle by its century, the group of four years, the year of the group and the day of
the year. -/
structure Parts where
  c : Int
  q : Int
  y : Int
  doy : Int

def parts (n : Int) : Parts :=
  let c := min (n / 36524) 3
  let r := n - 36524 * c
  let s := r - 1461 * (r / 1461)
  let y := min (s / 365) 3
  ⟨c,r / 1461,y,s - 365 * y⟩

/-- The month, from March on, of a day of the year, and the first day of a month. -/
def monthOf (doy : Int) : Int := (5 * doy + 2) / 153

def monthStart (m : Int) : Int := (153 * m + 2) / 5

/-- The date of a day of a year that began in March of `year`. -/
def dateIn (year doy : Int) : Date :=
  let mp := monthOf doy
  let month := if mp < 10 then mp + 3 else mp - 9
  ⟨year + (if month ≤ 2 then 1 else 0),month,doy - monthStart mp + 1⟩

def dateOf (day : Int) : Date :=
  let z := day + 719468
  let p := parts (z % 146097)
  dateIn (400 * (z / 146097) + 100 * p.c + 4 * p.q + p.y) p.doy

def weekday (day : Int) : Int := (day + 4) % 7

theorem partsSpec {n : Int} (lo : 0 ≤ n) (hi : n < 146097) :
    (0 ≤ (parts n).c ∧ (parts n).c ≤ 3) ∧ (0 ≤ (parts n).q ∧ (parts n).q ≤ 24) ∧ (0 ≤ (parts n).y ∧ (parts n).y ≤ 3) ∧
      (0 ≤ (parts n).doy ∧ (parts n).doy ≤ 365) ∧
      n = 36524 * (parts n).c + 1461 * (parts n).q + 365 * (parts n).y + (parts n).doy := by
  simp only [parts]
  omega

theorem partsUnique {c q y doy : Int} (hc : 0 ≤ c ∧ c ≤ 3) (hq : 0 ≤ q ∧ q ≤ 24) (hy : 0 ≤ y ∧ y ≤ 3)
    (hd : 0 ≤ doy ∧ doy ≤ 364) : parts (36524 * c + 1461 * q + 365 * y + doy) = ⟨c,q,y,doy⟩ := by
  have h1 : min ((36524 * c + 1461 * q + 365 * y + doy) / 36524) 3 = c := by omega
  have h2 : (36524 * c + 1461 * q + 365 * y + doy - 36524 * c) / 1461 = q := by omega
  simp only [parts,h1,h2,Parts.mk.injEq,true_and]
  omega

/-- The leap day is the 366th of the last year of a group, not at the end of the first three centuries. -/
theorem partsLeap {n : Int} (lo : 0 ≤ n) (hi : n < 146097) (leap : (parts n).doy = 365) :
    (parts n).y = 3 ∧ ((parts n).q < 24 ∨ (parts n).c = 3) := by
  simp only [parts] at *
  omega

theorem partsLeapDay {c q : Int} (hc : 0 ≤ c ∧ c ≤ 3) (hq : 0 ≤ q ∧ q ≤ 24) (room : q < 24 ∨ c = 3) :
    parts (36524 * c + 1461 * q + 365 * 3 + 365) = ⟨c,q,3,365⟩ := by
  have h1 : min ((36524 * c + 1461 * q + 365 * 3 + 365) / 36524) 3 = c := by omega
  have h2 : (36524 * c + 1461 * q + 365 * 3 + 365 - 36524 * c) / 1461 = q := by omega
  simp only [parts,h1,h2,Parts.mk.injEq,true_and]
  omega

theorem dayOfIn {year doy : Int} (lo : 0 ≤ doy) (hi : doy ≤ 365) :
    dayOf (dateIn year doy) = 365 * year + year / 4 - year / 100 + year / 400 + doy - 719468 := by
  have mp : 0 ≤ monthOf doy ∧ monthOf doy ≤ 11 := by unfold monthOf; omega
  simp only [dateIn,dayOf,monthStart]
  by_cases spring : monthOf doy < 10
  · simp only [if_pos spring,show ¬ monthOf doy + 3 ≤ 2 by omega,if_false]
    omega
  · simp only [if_neg spring,show monthOf doy - 9 ≤ 2 by omega,if_true]
    have e : year + 1 - 1 = year := by omega
    rw [e]
    omega

/-- The date of a day names that day. -/
theorem dayOfDate (day : Int) : dayOf (dateOf day) = day := by
  obtain ⟨hc,hq,hy,hd,sum⟩ := partsSpec (Int.emod_nonneg (day + 719468) (by decide : (146097 : Int) ≠ 0))
    (Int.emod_lt_of_pos (day + 719468) (by decide))
  rw [dateOf,dayOfIn hd.1 hd.2]
  generalize parts ((day + 719468) % 146097) = p at *
  obtain ⟨c,q,y,doy⟩ := p
  simp only at *
  have by4 : (400 * ((day + 719468) / 146097) + 100 * c + 4 * q + y) / 4 = 100 * ((day + 719468) / 146097) + 25 * c + q := by
    omega
  have by100 : (400 * ((day + 719468) / 146097) + 100 * c + 4 * q + y) / 100 = 4 * ((day + 719468) / 146097) + c := by omega
  have by400 : (400 * ((day + 719468) / 146097) + 100 * c + 4 * q + y) / 400 = (day + 719468) / 146097 := by omega
  rw [by4,by100,by400]
  omega

/-- The next day is the next of its year, or the first of a year. -/
theorem partsNext {n : Int} (lo : 0 ≤ n) (hi : n + 1 < 146097) :
    ((parts n).doy ≤ 363 ∧ parts (n + 1) = {parts n with doy := (parts n).doy + 1}) ∨
      (364 ≤ (parts n).doy ∧ ((parts (n + 1)).doy = 0 ∨ (parts (n + 1)).doy = (parts n).doy + 1)) := by
  obtain ⟨hc,hq,hy,hd,sum⟩ := partsSpec lo (by omega)
  by_cases early : (parts n).doy ≤ 363
  · left
    have next := partsUnique hc hq hy (show 0 ≤ (parts n).doy + 1 ∧ (parts n).doy + 1 ≤ 364 by omega)
    exact ⟨early,by rw [← next]; congr 1; omega⟩
  · right
    refine ⟨by omega,?_⟩
    -- only the leap day does not start a year after the 365th
    by_cases leap : (parts n).doy = 365
    · obtain ⟨last,room⟩ := partsLeap lo (by omega) leap
      have first := partsUnique hc (show 0 ≤ (parts n).q + 1 ∧ (parts n).q + 1 ≤ 24 by omega)
        (show (0 : Int) ≤ 0 ∧ (0 : Int) ≤ 3 by decide) (show (0 : Int) ≤ 0 ∧ (0 : Int) ≤ 364 by decide)
      rw [show n + 1 = 36524 * (parts n).c + 1461 * ((parts n).q + 1) + 365 * 0 + 0 by omega,first]
      exact .inl rfl
    · by_cases group : (parts n).y < 3
      · have first := partsUnique hc hq (show 0 ≤ (parts n).y + 1 ∧ (parts n).y + 1 ≤ 3 by omega)
          (show (0 : Int) ≤ 0 ∧ (0 : Int) ≤ 364 by decide)
        rw [show n + 1 = 36524 * (parts n).c + 1461 * (parts n).q + 365 * ((parts n).y + 1) + 0 by omega,first]
        exact .inl rfl
      · by_cases room : (parts n).q < 24 ∨ (parts n).c = 3
        · have day := partsLeapDay hc hq room
          rw [show n + 1 = 36524 * (parts n).c + 1461 * (parts n).q + 365 * 3 + 365 by omega,day]
          right
          show (365 : Int) = _
          omega
        · have first := partsUnique (show 0 ≤ (parts n).c + 1 ∧ (parts n).c + 1 ≤ 3 by omega)
            (show (0 : Int) ≤ 0 ∧ (0 : Int) ≤ 24 by decide) (show (0 : Int) ≤ 0 ∧ (0 : Int) ≤ 3 by decide)
            (show (0 : Int) ≤ 0 ∧ (0 : Int) ≤ 364 by decide)
          rw [show n + 1 = 36524 * ((parts n).c + 1) + 1461 * 0 + 365 * 0 + 0 by omega,first]
          exact .inl rfl

theorem dateInNext {year doy : Int} (early : (dateIn year doy).mday ≤ 27) :
    dateIn year (doy + 1) = {dateIn year doy with mday := (dateIn year doy).mday + 1} := by
  have same : monthOf (doy + 1) = monthOf doy := by
    simp only [dateIn,monthStart,monthOf] at *
    omega
  simp only [dateIn,same,Date.mk.injEq,true_and]
  omega

/-- The day of the month of the next day of a year. -/
theorem dateInStep (year doy : Int) :
    (dateIn year (doy + 1)).mday = (dateIn year doy).mday + 1 ∨ (dateIn year (doy + 1)).mday = 1 := by
  have month : monthOf (doy + 1) = monthOf doy ∨
      monthOf (doy + 1) = monthOf doy + 1 ∧ 5 * doy + 2 < 153 * (monthOf doy + 1) ∧ 153 * (monthOf doy + 1) ≤ 5 * doy + 7 := by
    unfold monthOf
    omega
  simp only [dateIn]
  rcases month with same | ⟨next,before,after⟩
  · rw [same]
    left
    omega
  · rw [next]
    right
    simp only [monthStart]
    omega

theorem mdayBounds (day : Int) : 1 ≤ (dateOf day).mday ∧ (dateOf day).mday ≤ 31 := by
  obtain ⟨_,_,_,hd,_⟩ := partsSpec (Int.emod_nonneg (day + 719468) (by decide : (146097 : Int) ≠ 0))
    (Int.emod_lt_of_pos (day + 719468) (by decide))
  simp only [dateOf,dateIn,monthStart,monthOf]
  omega

/-- The day after is in the same cycle, or begins one. -/
theorem cycleNext (day : Int) : (day + 719468) % 146097 + 1 < 146097 ∧
      (day + 1 + 719468) % 146097 = (day + 719468) % 146097 + 1 ∧ (day + 1 + 719468) / 146097 = (day + 719468) / 146097 ∨
    (day + 719468) % 146097 = 146096 ∧ (day + 1 + 719468) % 146097 = 0 := by
  omega

/-- The last days of a year are the 28th and the 29th. -/
theorem yearEnd (year : Int) {doy : Int} (late : 364 ≤ doy) (hi : doy ≤ 365) : 28 ≤ (dateIn year doy).mday := by
  rcases show doy = 364 ∨ doy = 365 by omega with rfl | rfl
  · exact (by decide : 28 ≤ (dateIn 0 364).mday)
  · exact (by decide : 28 ≤ (dateIn 0 365).mday)

/-- A day before the 28th is followed by a day of the same month. -/
theorem dateNext {day : Int} (early : (dateOf day).mday ≤ 27) :
    dateOf (day + 1) = {dateOf day with mday := (dateOf day).mday + 1} := by
  have lo := Int.emod_nonneg (day + 719468) (by decide : (146097 : Int) ≠ 0)
  have hi := Int.emod_lt_of_pos (day + 719468) (by decide : (0 : Int) < 146097)
  obtain ⟨_,_,_,hd,_⟩ := partsSpec lo hi
  rcases cycleNext day with ⟨room,rem,quot⟩ | ⟨last,_⟩
  · rcases partsNext lo room with ⟨_,next⟩ | ⟨late,_⟩
    · simp only [dateOf,rem,quot,next]
      exact dateInNext early
    · rw [dateOf] at early
      exact absurd (Int.le_trans (yearEnd _ late hd.2) early) (by decide)
  · have doy : (parts 146096).doy = 365 := by decide
    rw [dateOf,last,doy] at early
    exact absurd (Int.le_trans (yearEnd _ (by decide) (by decide)) early) (by decide)

/-- After any day the day of the month goes up by one or starts again at one. -/
theorem mdayNext (day : Int) : (dateOf (day + 1)).mday = (dateOf day).mday + 1 ∨ (dateOf (day + 1)).mday = 1 := by
  have lo := Int.emod_nonneg (day + 719468) (by decide : (146097 : Int) ≠ 0)
  have first : ∀ year, (dateIn year 0).mday = 1 := fun year => rfl
  have shift : ∀ year year' doy, (dateIn year doy).mday = (dateIn year' doy).mday := fun _ _ _ => rfl
  rcases cycleNext day with ⟨room,rem,quot⟩ | ⟨_,rem⟩
  · rcases partsNext lo room with ⟨_,next⟩ | ⟨_,next | next⟩
    · simp only [dateOf,rem,quot,next]
      exact dateInStep _ _
    · simp only [dateOf,rem,next]
      exact .inr (first _)
    · simp only [dateOf,rem,quot,next]
      rw [shift _ (400 * ((day + 719468) / 146097) + 100 * (parts ((day + 719468) % 146097)).c +
        4 * (parts ((day + 719468) % 146097)).q + (parts ((day + 719468) % 146097)).y)]
      exact dateInStep _ _
  · have doy : (parts 0).doy = 0 := by decide
    simp only [dateOf,rem,doy]
    exact .inr (first _)

end Napastak.Calendar
