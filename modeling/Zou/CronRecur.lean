import Zou.CronFields

/-!
# How often a line comes round

Vixie's rule for the day is the code's less the days that the set of a
starred field leaves out, and a bare star leaves out none. By the code's rule
a line that names a minute names one in every 374 days: a day that every year
has comes within 366 of them, a day of the week within the first week of a
month. The exception is a line of 29 Februaries, which are eight years apart
across a century that is no leap year.
-/

namespace Zou

namespace Cron

/-! ## Days that every year has -/

/-- The number of a day in the year that starts in March. -/
def doyOf (mo d : Nat) : Nat := (153 * (if mo ≤ 2 then mo + 9 else mo - 3) + 2) / 5 + d - 1

theorem monthDay_doyOf : ∀ mo < 13, ∀ d < 32,
    1 ≤ mo ∧ 1 ≤ d ∧ d ≤ Date.monthLength false mo →
      doyOf mo d < 365 ∧ (monthDay (doyOf mo d)).1 = mo ∧ (monthDay (doyOf mo d)).2 = d := by
  decide +kernel

/-- The same day of the year after. -/
theorem next_year (era : Int) {y : Nat} (hy : y < 400) : ∃ era' y', y' < 400 ∧ ∀ doy,
    dayOf era' y' doy = dayOf era y doy + (yearStart (y + 1) - yearStart y : Nat) := by
  by_cases hlast : y = 399
  · have hstart : yearStart 399 = 145731 := by decide
    have hend : yearStart (399 + 1) = 146097 := rfl
    have hzero : yearStart 0 = 0 := rfl
    refine ⟨era + 1, 0, by decide, fun doy => ?_⟩
    unfold dayOf
    rw [hlast, hstart, hend, hzero]
    omega
  · have hlen := (yearOf_ends y hy).2.2
    refine ⟨era, y + 1, by omega, fun doy => ?_⟩
    unfold dayOf
    omega

/-- A day that every year has comes round within 366 days. -/
theorem exists_date (c : Calendar) {mo d : Nat} (hmo : 1 ≤ mo ∧ mo ≤ 12) (hd : 1 ≤ d)
    (hlen : d ≤ Date.monthLength false mo) (n : Int) :
    ∃ k, n ≤ k ∧ k < n + 366 ∧ (c.date k).month = mo ∧ (c.date k).day = d := by
  have hbound := Date.monthLength_bounds true mo
  obtain ⟨hdoy', hmd⟩ := monthDay_doyOf mo (by omega) d (by omega) ⟨hmo.1, hd, hlen⟩
  obtain ⟨era, y, doy, hy, hdoy, rfl⟩ := exists_dayOf n
  have hyear : ∀ y < 400, yearStart y + 365 ≤ yearStart (y + 1)
      ∧ yearStart (y + 1) ≤ yearStart y + 366 := by
    intro y hy
    have hlen := (yearOf_ends y hy).2.2
    split at hlen <;> omega
  have hdate : ∀ {era : Int} {y : Nat}, y < 400 →
      (c.date (dayOf era y (doyOf mo d))).month = mo ∧
        (c.date (dayOf era y (doyOf mo d))).day = d := by
    intro era y hy
    have := (hyear y hy).1
    rw [← civil_eq c, civil_dayOf hy (by omega)]
    exact hmd
  have hthis := hyear y hy
  by_cases hle : doy ≤ doyOf mo d
  · refine ⟨dayOf era y (doyOf mo d), ?_, ?_, hdate hy⟩ <;> unfold dayOf <;> omega
  · obtain ⟨era', y', hy', hday⟩ := next_year era hy
    refine ⟨dayOf era' y' (doyOf mo d), ?_, ?_, hdate hy'⟩ <;> rw [hday] <;> unfold dayOf <;> omega

/-- A day of the week comes in the first seven of a month. -/
theorem exists_weekday (c : Calendar) {mo w : Nat} (hmo : 1 ≤ mo ∧ mo ≤ 12) (hw : w < 7)
    (n : Int) : ∃ k, n ≤ k ∧ k < n + 373 ∧ (c.date k).month = mo ∧ ((k + 4) % 7).toNat = w := by
  have hbound := Date.monthLength_bounds true mo
  obtain ⟨k, hle, hlt, hmonth, hday⟩ := exists_date c hmo (Nat.le_refl 1) (by omega) n
  let j := ((w - (k + 4)) % 7).toNat
  have hj : j < 7 ∧ ((k + j + 4) % 7).toNat = w := by omega
  have hadd : (c.date (k + j)).month = mo := by
    rw [c.date_add (by rw [hmonth, hday]; omega)]
    exact hmonth
  exact ⟨k + j, by omega, by omega, hadd, hj.2⟩

/-- Month and day come round in four hundred years. -/
theorem civil_era (n : Int) : (civil (n % 146097)).month = (civil n).month
    ∧ (civil (n % 146097)).day = (civil n).day := by
  have hmod : (n % 146097 + 719468) % 146097 = (n + 719468) % 146097 := by omega
  unfold civil
  simp only [hmod, and_self]

/-! ## Lines -/

theorem range_first {lo hi : Nat} {names : Option (List Text)} {part : Text} {r : Range}
    (h : range lo hi names part = some r) : lo ≤ r.first := by
  obtain ⟨⟨body, step⟩, -, h⟩ := Option.bind_eq_some_iff.mp h
  dsimp only at h
  split at h
  · obtain rfl := Option.some.inj h
    exact le_rfl
  · split at h
    · obtain ⟨first, hfirst, h⟩ := Option.bind_eq_some_iff.mp h
      split at h
      · cases h
      · cases h
        exact (value_bounds hfirst).1
    · obtain ⟨first, hfirst, h⟩ := Option.bind_eq_some_iff.mp h
      obtain ⟨second, -, rfl⟩ := Option.map_eq_some_iff.mp h
      exact (value_bounds hfirst).1
    · cases h

theorem Bounds.Denotes.ge {b : Bounds} {field : Text} {v : Nat} (h : b.Denotes field v) :
    b.lo ≤ v := by
  obtain ⟨part, -, r, hr, k, rfl, -⟩ := h
  exact Nat.le_add_right_of_le (range_first (Bounds.range_some hr).2)

/-- A bare star denotes everything. -/
theorem Bounds.denotes_star {b : Bounds} {field : Text} (h : ['*'] ∈ parts field) {v : Nat}
    (hlo : b.lo ≤ v) (hhi : v ≤ b.hi) : b.Denotes field v :=
  ⟨['*'], h, ⟨b.lo, b.hi, 1⟩, rfl, v - b.lo, by dsimp only; omega, by dsimp only; omega⟩

namespace Line

/-- The set of a starred field leaves a day out. -/
def LeftOut (l : Line) (c : Calendar) (k : Int) : Prop :=
  (startsWithStar l.dom = true ∧ ¬ domBounds.Denotes l.dom (c.date k).day)
    ∨ (startsWithStar l.dow = true ∧ ¬ l.OnWeekday ((k + 4) % 7).toNat)

variable {l : Line} {c : Calendar} {m : Int}

/-- Vixie's rule is the code's less the days that are left out. -/
theorem names_vixie :
    l.Names c vixieRule m ↔ l.Names c starRule m ∧ ¬ l.LeftOut c (m / 60 / 24) := by
  unfold Names LeftOut
  rw [and_assoc, and_assoc, and_assoc]
  refine and_congr_right fun _ => and_congr_right fun _ => and_congr_right fun _ => ?_
  unfold starRule vixieRule
  cases startsWithStar l.dom with
  | true => cases startsWithStar l.dow <;> simp [and_comm]
  | false => cases startsWithStar l.dow <;> simp

/-- Where the starred fields have no step the two rules are one. -/
theorem names_unstepped (hdom : startsWithStar l.dom = true → ['*'] ∈ parts l.dom)
    (hdow : startsWithStar l.dow = true → ['*'] ∈ parts l.dow) :
    l.Names c starRule m ↔ l.Names c vixieRule m := by
  rw [names_vixie, iff_self_and]
  rintro - (⟨hstar, hnot⟩ | ⟨hstar, hnot⟩)
  · have hday := (c.valid (m / 60 / 24)).day
    have hbound := Date.monthLength_bounds (Date.isLeap (c.date (m / 60 / 24)).year)
      (c.date (m / 60 / 24)).month
    exact hnot (Bounds.denotes_star (hdom hstar) hday.1 (show _ ≤ 31 by omega))
  · exact hnot (.inl (Bounds.denotes_star (hdow hstar) (Nat.zero_le _)
      (show _ ≤ 7 by omega)))

/-- What a line names comes round with the calendar, in four hundred years. -/
theorem names_era (h : l.Names c starRule m) : l.Names c starRule (m % (146097 * 1440))
      ∧ (l.LeftOut c (m / 60 / 24) → l.LeftOut c (m % (146097 * 1440) / 60 / 24)) := by
  have hk : m % (146097 * 1440) / 60 / 24 = m / 60 / 24 % 146097 := by omega
  have hdate := civil_era (m / 60 / 24)
  rw [civil_eq c, civil_eq c] at hdate
  have h60 : m % (146097 * 1440) % 60 = m % 60 := by omega
  have h24 : m % (146097 * 1440) / 60 % 24 = m / 60 % 24 := by omega
  have h7 : (m / 60 / 24 % 146097 + 4) % 7 = (m / 60 / 24 + 4) % 7 := by omega
  unfold Names LeftOut at *
  rw [h60, h24, hk, h7, hdate.1, hdate.2]
  exact ⟨h, id⟩

/-- The day fields and the month leave no day to name but the 29 February. -/
structure LeapDayOnly (l : Line) : Prop where
  dom : startsWithStar l.dom = false
  dow : startsWithStar l.dow = true ∨ ∀ w < 7, ¬ l.OnWeekday w
  days : ∀ mo d, monthBounds.Denotes l.month mo → domBounds.Denotes l.dom d →
    d ≤ Date.monthLength true mo → mo = 2 ∧ d = 29

variable {m₀ : Int}

/-- A minute of the day of one that is named, on another day. -/
theorem names_onDay {rule : Bool → Bool → Prop → Prop → Prop}
    (h₀ : l.Names c rule m₀) {k : Int} (hmonth : monthBounds.Denotes l.month (c.date k).month)
    (hday : rule (startsWithStar l.dom) (startsWithStar l.dow)
      (domBounds.Denotes l.dom (c.date k).day) (l.OnWeekday ((k + 4) % 7).toNat)) :
    l.Names c rule (k * 1440 + m₀ % 1440) := by
  obtain ⟨hminute, hhour, -, -⟩ := h₀
  have h60 : (k * 1440 + m₀ % 1440) % 60 = m₀ % 60 := by omega
  have h24 : (k * 1440 + m₀ % 1440) / 60 % 24 = m₀ / 60 % 24 := by omega
  have hk : (k * 1440 + m₀ % 1440) / 60 / 24 = k := by omega
  unfold Names
  rw [h60, h24, hk]
  exact ⟨hminute, hhour, hmonth, hday⟩

/-- A day of the line is never far. -/
theorem exists_day (hl : ¬ l.LeapDayOnly) (h₀ : l.Names c starRule m₀) (n : Int) :
    ∃ k, n ≤ k ∧ k < n + 373 ∧ monthBounds.Denotes l.month (c.date k).month
      ∧ starRule (startsWithStar l.dom) (startsWithStar l.dow)
        (domBounds.Denotes l.dom (c.date k).day) (l.OnWeekday ((k + 4) % 7).toNat) := by
  obtain ⟨-, -, hmonth, hday⟩ := h₀
  have hmo := (c.valid (m₀ / 60 / 24)).month
  by_cases hweek : (startsWithStar l.dom = true ∨ startsWithStar l.dow = false)
      ∧ (startsWithStar l.dow = true ∨ ∃ w < 7, l.OnWeekday w)
  · -- A day of the week, or every day, is enough for the rule.
    obtain ⟨w, hw, hon⟩ : ∃ w < 7, startsWithStar l.dow = true ∨ l.OnWeekday w := by
      rcases hweek.2 with hs | ⟨w, hw, hon⟩
      · exact ⟨0, by decide, .inl hs⟩
      · exact ⟨w, hw, .inr hon⟩
    obtain ⟨k, hle, hlt, hk, hkw⟩ := exists_weekday c hmo hw n
    refine ⟨k, hle, hlt, hk.symm ▸ hmonth, ?_⟩
    rw [hkw]
    revert hon
    rcases hweek.1 with hs | hs
    · rw [hs]
      cases startsWithStar l.dow <;> simp [starRule]
    · rw [hs]
      cases startsWithStar l.dom <;> simp +contextual [starRule]
  · -- The day of the month is left to name a day that every year has.
    have hdom : startsWithStar l.dom = false := by
      refine Bool.eq_false_iff.mpr fun hs => hweek ⟨.inl hs, ?_⟩
      rw [hs] at hday
      cases hdow : startsWithStar l.dow with
      | true => exact .inl rfl
      | false =>
        rw [hdow] at hday
        exact .inr ⟨_, by omega, hday⟩
    have hdow : startsWithStar l.dow = true ∨ ∀ w < 7, ¬ l.OnWeekday w := by
      cases hs : startsWithStar l.dow with
      | true => exact .inl rfl
      | false => exact .inr fun w hw hon => hweek ⟨.inr hs, .inr ⟨w, hw, hon⟩⟩
    obtain ⟨mo, d, hmonth', hdate, hle, hne⟩ : ∃ mo d, monthBounds.Denotes l.month mo
        ∧ domBounds.Denotes l.dom d ∧ d ≤ Date.monthLength true mo ∧ ¬ (mo = 2 ∧ d = 29) := by
      refine Classical.byContradiction fun hno => hl ⟨hdom, hdow, fun mo d hm hd hle => ?_⟩
      exact Classical.byContradiction fun hne => hno ⟨mo, d, hm, hd, hle, hne⟩
    have hlen : d ≤ Date.monthLength false mo := by
      rw [monthLength_of]
      split
      · rename_i hfeb
        rw [hfeb.1] at hle
        have hlong : Date.monthLength true 2 = 29 := rfl
        omega
      · exact hle
    obtain ⟨k, hkn, hlt, hk, hkd⟩ := exists_date c ⟨hmonth'.ge, hmonth'.le⟩ hdate.ge hlen n
    refine ⟨k, hkn, by omega, hk.symm ▸ hmonth', ?_⟩
    rw [hdom, hkd]
    cases startsWithStar l.dow with
    | true => exact hdate
    | false => exact .inl hdate

/-- A line that names a minute, and not of the 29 February only, names one
in every 374 days. -/
theorem recurs (hl : ¬ l.LeapDayOnly) (h₀ : l.Names c starRule m₀) (n : Int) :
    ∃ m, n ≤ m ∧ m < n + 374 * 1440 ∧ l.Names c starRule m := by
  obtain ⟨k, hle, hlt, hmonth, hday⟩ := exists_day hl h₀ (n / 1440 + 1)
  exact ⟨k * 1440 + m₀ % 1440, by omega, by omega, names_onDay h₀ hmonth hday⟩

/-! ## The 29 February -/

theorem LeapDayOnly.denotes (h : l.LeapDayOnly) (hm : l.Names c starRule m) :
    domBounds.Denotes l.dom (c.date (m / 60 / 24)).day := by
  obtain ⟨-, -, -, hday⟩ := hm
  rw [h.dom] at hday
  cases hs : startsWithStar l.dow with
  | true =>
    rw [hs] at hday
    exact hday
  | false =>
    rw [hs] at hday
    have hno := h.dow.resolve_left (by rw [hs]; exact Bool.false_ne_true)
    exact hday.resolve_right (hno _ (by omega))

/-- The days a line of 29 Februaries names. -/
theorem LeapDayOnly.date (h : l.LeapDayOnly) (hm : l.Names c starRule m) :
    (c.date (m / 60 / 24)).month = 2 ∧ (c.date (m / 60 / 24)).day = 29 := by
  have hvalid := (c.valid (m / 60 / 24)).day
  have hbound := Date.monthLength_bounds (Date.isLeap (c.date (m / 60 / 24)).year)
    (c.date (m / 60 / 24)).month
  exact h.days _ _ hm.2.2.1 (h.denotes hm) (by omega)

/-- The first of March 2096. The 29 February 2104 is eight years later. -/
def march2096 : Int := 46081

theorem no_leap_day {k : Int} (hle : march2096 ≤ k) (hlt : k < march2096 + 2920) :
    ¬ ((civil k).month = 2 ∧ (civil k).day = 29) := by
  have hyears : ∀ q < 8, yearStart (96 + q) = yearStart 96 + 365 * q := by decide
  have hstart : yearStart 96 = 35064 := by decide
  have hfirst : march2096 = 46081 := rfl
  have hyear := hyears ((k - march2096).toNat / 365) (by omega)
  have hlen := (yearOf_ends (96 + (k - march2096).toNat / 365) (by omega)).2.2
  have hk : k = dayOf 5 (96 + (k - march2096).toNat / 365) ((k - march2096).toNat % 365) := by
    unfold dayOf
    omega
  rw [hk, civil_dayOf (by omega) (by omega)]
  rintro ⟨hfeb, hday⟩
  have hlast := (monthDay_valid ((k - march2096).toNat % 365) (by omega)).2.2.2.2.1 hfeb hday
  omega

/-- Between the two the line names nothing, and then it does. -/
theorem LeapDayOnly.century (h : l.LeapDayOnly) (h₀ : l.Names c starRule m₀) :
    (∀ m, march2096 * 1440 ≤ m → m < (march2096 + 2920) * 1440 → ¬ l.Names c starRule m)
      ∧ ∃ m, (march2096 + 2920) * 1440 ≤ m ∧ m < (march2096 + 2921) * 1440
        ∧ l.Names c starRule m := by
  constructor
  · intro m hle hlt hm
    refine no_leap_day (k := m / 60 / 24) (by omega) (by omega) ?_
    rw [civil_eq c]
    exact h.date hm
  · have hdate := h.date h₀
    have hleap : c.date (march2096 + 2920) = ⟨2104, 2, 29⟩ := by
      rw [← civil_eq c]
      decide +kernel
    refine ⟨(march2096 + 2920) * 1440 + m₀ % 1440, by omega, by omega, names_onDay h₀ ?_ ?_⟩
    · have hmonth := h₀.2.2.1
      rw [hdate.1] at hmonth
      rw [hleap]
      exact hmonth
    · have hday : domBounds.Denotes l.dom 29 := hdate.2 ▸ h.denotes h₀
      rw [hleap, h.dom]
      cases startsWithStar l.dow with
      | true => exact hday
      | false => exact .inl hday

end Line

end Cron

end Zou
