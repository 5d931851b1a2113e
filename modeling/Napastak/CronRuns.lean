import Napastak.Cron

/-! The search of `cron_next` visits every minute in turn; what it returns is the next run exactly where it judges
the minutes up to it as the expression means them. -/
namespace Napastak.Cron
open Calendar

/-- The broken-down time stands for minute `m` of a search that began on `day0`. -/
structure At (day0 m : Int) (tm : Tm) : Prop where
  minute : 60 ∣ m
  since : day0 ≤ m / 86400
  is : tm = {gmtime m with wday := weekday (seenDay day0 (m / 86400))}

theorem timegmMinute {m : Int} (minute : 60 ∣ m) (w : Int) : timegm {gmtime m with wday := w} = m := by
  simp only [timegm,gmtime,dayOfDate]
  omega

/-- A time of a later minute of the same day, normalised or not. -/
theorem atSameDay {day0 m : Int} (minute : 60 ∣ m) (since : day0 ≤ m / 86400) {tm : Tm}
    (is : tm = {gmtime m with wday := weekday (seenDay day0 (m / 86400))}) :
    At day0 m (if 28 < tm.date.mday then gmtime (timegm tm) else tm) := by
  refine ⟨minute,since,?_⟩
  subst is
  split
  · rename_i late
    have here : seenDay day0 (m / 86400) = m / 86400 := if_pos late
    rw [timegmMinute minute,here]
    rfl
  · rfl

/-- The carries of a minute that is not the last of its day. -/
theorem carryWithin {m : Int} (minute : 60 ∣ m) (within : m % 86400 < 86340) (w : Int) :
    nextMinute {gmtime m with wday := w} =
      (let tm : Tm := {gmtime (m + 60) with wday := w}; if 28 < tm.date.mday then gmtime (timegm tm) else tm) := by
  have day : (m + 60) / 86400 = m / 86400 := by omega
  by_cases carry : 60 ≤ m % 3600 / 60 + 1
  · have hour : (m + 60) % 86400 / 3600 = m % 86400 / 3600 + 1 := by omega
    have min : (m + 60) % 3600 / 60 = 0 := by omega
    have stay : ¬ 24 ≤ m % 86400 / 3600 + 1 := by omega
    have next : ({gmtime (m + 60) with wday := w} : Tm) = ⟨dateOf (m / 86400),m % 86400 / 3600 + 1,0,w⟩ := by
      simp only [gmtime,day,hour,min]
    rw [next]
    simp only [nextMinute,gmtime,carry,stay,↓reduceIte]
  · have hour : (m + 60) % 86400 / 3600 = m % 86400 / 3600 := by omega
    have min : (m + 60) % 3600 / 60 = m % 3600 / 60 + 1 := by omega
    have stay : ¬ 24 ≤ m % 86400 / 3600 := by omega
    have next : ({gmtime (m + 60) with wday := w} : Tm) = ⟨dateOf (m / 86400),m % 86400 / 3600,m % 3600 / 60 + 1,w⟩ := by
      simp only [gmtime,day,hour,min]
    rw [next]
    simp only [nextMinute,gmtime,carry,stay,↓reduceIte]

/-- The carries of the last minute of a day. -/
theorem carryOver {m : Int} (minute : 60 ∣ m) (last : ¬ m % 86400 < 86340) (w : Int) :
    nextMinute {gmtime m with wday := w} =
      (let tm : Tm := ⟨{dateOf (m / 86400) with mday := (dateOf (m / 86400)).mday + 1},0,0,w⟩
        if 28 < tm.date.mday then gmtime (timegm tm) else tm) := by
  have min : 60 ≤ m % 3600 / 60 + 1 := by omega
  have hour : 24 ≤ m % 86400 / 3600 + 1 := by omega
  simp only [nextMinute,gmtime,min,hour,↓reduceIte]

theorem dayOfShift (date : Date) : dayOf {date with mday := date.mday + 1} = dayOf date + 1 := by
  simp only [dayOf]
  omega

theorem nextMinuteAt {day0 m : Int} {tm : Tm} (h : At day0 m tm) : At day0 (m + 60) (nextMinute tm) := by
  obtain ⟨minute,since,rfl⟩ := h
  have minute' : 60 ∣ m + 60 := by omega
  have since' : day0 ≤ (m + 60) / 86400 := by omega
  by_cases within : m % 86400 < 86340
  · rw [carryWithin minute within]
    have day : (m + 60) / 86400 = m / 86400 := by omega
    exact atSameDay minute' since' (by rw [day])
  · rw [carryOver minute within]
    have day : (m + 60) / 86400 = m / 86400 + 1 := by omega
    have midnight : m + 60 = (m / 86400 + 1) * 86400 := by omega
    simp only
    split
    · -- the date is worked out again, and the day is past the 28th or the first of a month
      rename_i late
      have time : timegm ⟨{dateOf (m / 86400) with mday := (dateOf (m / 86400)).mday + 1},0,0,
          weekday (seenDay day0 (m / 86400))⟩ = m + 60 := by
        simp only [timegm,dayOfShift,dayOfDate]
        omega
      have seen : seenDay day0 (m / 86400 + 1) = m / 86400 + 1 := by
        rw [seenDay]
        split
        · rfl
        · rename_i early
          rcases mdayNext (m / 86400) with next | first
          · omega
          · rw [first]; omega
      refine ⟨minute',since',?_⟩
      rw [time,day,seen]
      simp only [gmtime,day]
    · rename_i early
      have next := dateNext (show (dateOf (m / 86400)).mday ≤ 27 by omega)
      have seen : seenDay day0 (m / 86400 + 1) = seenDay day0 (m / 86400) := by
        rw [seenDay,seenDay,next,if_neg (by omega),if_neg (by omega)]
        simp only
        congr 1
        omega
      refine ⟨minute',since',?_⟩
      simp only [gmtime,day,next,seen,Tm.mk.injEq,true_and,and_true]
      omega

/-- The search returns the first of the next `n` minutes it judges right, if there is one. -/
theorem searchCases (s : Schedule) {start : Int} (n : Nat) {m : Int} {tm : Tm} (h : At (firstMinute start / 86400) m tm) :
    (∃ k < n, search s n tm = m + 60 * k ∧ s.judges start (m + 60 * k) ∧ ∀ j < k, s.judges start (m + 60 * j) = false) ∨
      (search s n tm = -1 ∧ ∀ k < n, s.judges start (m + 60 * k) = false) := by
  induction n generalizing m tm with
  | zero => exact .inr ⟨rfl,fun k hk => absurd hk (Nat.not_lt_zero k)⟩
  | succ n ih =>
    have judged : s.has tm = s.judges start m := by rw [Schedule.judges,← h.is]
    cases hit : s.judges start m with
    | true =>
      have at_ : timegm tm = m := by rw [h.is]; exact timegmMinute h.minute _
      left
      refine ⟨0,Nat.succ_pos n,?_,by simpa using hit,fun j hj => absurd hj (Nat.not_lt_zero j)⟩
      rw [search,judged,hit,if_pos rfl,at_]
      simp
    | false =>
      have shift : ∀ k : Nat, m + 60 + 60 * (k : Int) = m + 60 * ((k + 1 : Nat) : Int) := fun k => by push_cast; omega
      have miss : ∀ k, (∀ j < k, s.judges start (m + 60 + 60 * (j : Nat)) = false) →
          ∀ j < k + 1, s.judges start (m + 60 * (j : Nat)) = false := fun k none_ j hj => by
        cases j with
        | zero => simpa using hit
        | succ j => rw [← shift]; exact none_ j (by omega)
      rw [search,judged,hit,if_neg Bool.false_ne_true]
      rcases ih (nextMinuteAt h) with ⟨k,hk,is,hits,before⟩ | ⟨is,none_⟩
      · exact .inl ⟨k + 1,by omega,by rw [is,shift],by rw [← shift]; exact hits,miss k before⟩
      · exact .inr ⟨is,miss n none_⟩

/-- The day of the week the search holds is today's on the day it began, after the 28th and on the first of a month. -/
theorem seenToday {day0 day : Int} (since : day0 ≤ day) :
    seenDay day0 day = day ↔ day = day0 ∨ 28 < (dateOf day).mday ∨ (dateOf day).mday = 1 := by
  have := (mdayBounds day).1
  unfold seenDay
  split <;> omega

/-- The search begins on the first minute after the start, with the right day of the week. -/
theorem startAt (start : Int) : At (firstMinute start / 86400) (firstMinute start) (gmtime (start + 60)) := by
  have day : (start + 60) / 86400 = firstMinute start / 86400 := by unfold firstMinute; omega
  have hour : (start + 60) % 86400 / 3600 = firstMinute start % 86400 / 3600 := by unfold firstMinute; omega
  have min : (start + 60) % 3600 / 60 = firstMinute start % 3600 / 60 := by unfold firstMinute; omega
  refine ⟨⟨(start + 60) / 60,Int.mul_comm _ _⟩,Int.le_refl _,?_⟩
  rw [(seenToday (Int.le_refl _)).mpr (.inl rfl)]
  simp only [gmtime,day,hour,min]

/-- The minutes after the start are those the search goes through. -/
theorem minuteAfter {start m : Int} (minute : 60 ∣ m) (later : start < m) : ∃ k : Nat, m = firstMinute start + 60 * k := by
  obtain ⟨q,rfl⟩ := minute
  refine ⟨(q - (start + 60) / 60).toNat,?_⟩
  unfold firstMinute
  omega

theorem minuteLater (start : Int) (k : Nat) : 60 ∣ firstMinute start + 60 * k ∧ start < firstMinute start + 60 * k := by
  unfold firstMinute
  omega

/-- An expression of five fields is no alias. -/
theorem meaningPlain {expr : Bytes} {s : Schedule} (valid : meaning expr = some s) :
    alias_ expr = expr ∧ expr ≠ ascii "@reboot" := by
  have other : ∀ name : Bytes, meaning name = none → expr ≠ name := fun name none_ e => by
    rw [e,none_] at valid
    cases valid
  have h1 := other (ascii "@hourly") (by decide)
  have h2 := other (ascii "@daily") (by decide)
  have h3 := other (ascii "@weekly") (by decide)
  have h4 := other (ascii "@monthly") (by decide)
  have h5 := other (ascii "@yearly") (by decide)
  refine ⟨?_,other _ (by decide)⟩
  simp only [alias_,h1,h2,h3,h4,h5,if_false]

theorem cronNextPlain {expr : Bytes} {s : Schedule} (valid : meaning expr = some s) (start : Int) :
    cronNext expr start = match schedule expr with
      | none => some (-1)
      | some c => c.map fun c => search c horizon (gmtime (start + 60)) := by
  obtain ⟨plain,boot⟩ := meaningPlain valid
  unfold cronNext
  cases h : schedule expr with
  | none => simp only [plain,if_neg boot,h]
  | some c => simp only [plain,if_neg boot,h]

def always : Schedule :=
  ⟨(List.range 60).map (↑),(List.range 24).map (↑),(List.range 31).map (1 + ↑·),(List.range 12).map (1 + ↑·),
    (List.range 7).map (↑)⟩

end Napastak.Cron
