import Zou.Cron

/-!
# The calendar of the schedules

`civil` computes a date from the number of a day with years that start in
March, so that the leap day is their last, in eras of four hundred. It is
the calendar: its dates are valid, and the next day has tomorrow's.

The arithmetic is checked where it is finite: a year and its bounds over
the four hundred years of an era (`yearOf_ends`), a month over the 366 days
of a year (`monthDay_next`). Every day is one day of one year of one era
(`exists_dayOf`), where `civil` has a closed form (`civil_dayOf`); the day
after is the next of the year, or the first of the next one, or of the next
era.
-/

namespace Zou

namespace Cron

/-! ## Years of an era -/

/-- The days of an era in front of a year. -/
def yearStart (y : Nat) : Nat := if y = 400 then 146097 else 365 * y + y / 4 - y / 100

def yearOf (doe : Nat) : Nat := (doe - doe / 1460 + doe / 36524 - doe / 146096) / 365

theorem yearOf_mono {a b : Nat} (h : a ≤ b) (hb : b < 146097) : yearOf a ≤ yearOf b := by
  unfold yearOf
  refine Nat.div_le_div_right ?_
  omega

/-- The first day of a year and the last are in it, and it is as long as the
February at its end makes it. -/
theorem yearOf_ends : ∀ y < 400,
    yearOf (yearStart y) = y ∧ yearOf (yearStart (y + 1) - 1) = y
      ∧ yearStart y + 365 + (if Date.isLeap (y + 1 : Nat) then 1 else 0) = yearStart (y + 1) := by
  decide +kernel

/-- The years of an era leave no day out, by induction on the years. -/
theorem exists_year : ∀ k ≤ 400, ∀ doe < yearStart k,
    ∃ y < 400, yearStart y ≤ doe ∧ doe < yearStart (y + 1) := by
  intro k
  induction k with
  | zero => exact fun _ doe h => absurd h (Nat.not_lt_zero doe)
  | succ k ih =>
    intro hk doe hdoe
    by_cases hlt : doe < yearStart k
    · exact ih (Nat.le_of_succ_le hk) doe hlt
    · exact ⟨k, hk, Nat.le_of_not_lt hlt, hdoe⟩

variable {y : Nat}

theorem yearOf_eq {doe : Nat} (hy : y < 400) (h : yearStart y ≤ doe)
    (hnext : doe < yearStart (y + 1)) (hdoe : doe < 146097) : yearOf doe = y := by
  obtain ⟨hfirst, hlast, hlen⟩ := yearOf_ends y hy
  have hend : yearStart (y + 1) - 1 < 146097 := by
    unfold yearStart
    split <;> omega
  refine Nat.le_antisymm ?_ ?_
  · calc yearOf doe ≤ yearOf (yearStart (y + 1) - 1) := yearOf_mono (by omega) hend
      _ = y := hlast
  · calc y = yearOf (yearStart y) := hfirst.symm
      _ ≤ yearOf doe := yearOf_mono h hdoe

/-! ## Days of a year -/

/-- The month and the day of a day of a year that starts in March. -/
def monthDay (doy : Nat) : Nat × Nat :=
  let mp := (5 * doy + 2) / 153
  (if mp < 10 then mp + 3 else mp - 9, doy - (153 * mp + 2) / 5 + 1)

/-- The day after has the next day of the month, or the first of the next
month where the month is over. -/
theorem monthDay_next : ∀ doy < 365,
    (monthDay (doy + 1) = if (monthDay doy).2 < Date.monthLength true (monthDay doy).1
      then ((monthDay doy).1, (monthDay doy).2 + 1)
      else if (monthDay doy).1 < 12 then ((monthDay doy).1 + 1, 1) else (1, 1)) := by
  decide +kernel

theorem monthDay_valid : ∀ doy < 366,
    1 ≤ (monthDay doy).1 ∧ (monthDay doy).1 ≤ 12 ∧ 1 ≤ (monthDay doy).2
      ∧ (monthDay doy).2 ≤ Date.monthLength true (monthDay doy).1
      ∧ ((monthDay doy).1 = 2 → (monthDay doy).2 = 29 → doy = 365)
      ∧ ((monthDay doy).1 = 2 → (monthDay doy).2 = 28 → doy = 364) := by
  decide +kernel

/-! ## Dates -/

/-- The year a day is in, by its month. -/
def yearIn (era : Int) (y doy : Nat) : Int :=
  if (monthDay doy).1 ≤ 2 then y + era * 400 + 1 else y + era * 400

/-- The day of an era, a year and a day of the year. -/
def dayOf (era : Int) (y doy : Nat) : Int := 146097 * era + (yearStart y + doy : Nat) - 719468

theorem yearStart_lt (hy : y < 400) : yearStart y = 365 * y + y / 4 - y / 100 :=
  if_neg (Nat.ne_of_lt hy)

theorem yearStart_le (hy : y ≤ 400) : yearStart y ≤ 146097 := by
  unfold yearStart
  split <;> omega

variable {era : Int} {doy : Nat}

/-- The date of a day that is given by its era, its year and its day there. -/
theorem civil_dayOf (hy : y < 400) (hdoy : yearStart y + doy < yearStart (y + 1)) :
    civil (dayOf era y doy) = ⟨yearIn era y doy, (monthDay doy).1, (monthDay doy).2⟩ := by
  have hbound : yearStart (y + 1) ≤ 146097 := yearStart_le hy
  have hdoe : (dayOf era y doy + 719468) % 146097 = (yearStart y + doy : Nat) := by
    unfold dayOf
    omega
  have hera : (dayOf era y doy + 719468) / 146097 = era := by
    unfold dayOf
    omega
  have hyear : ((yearStart y + doy) - (yearStart y + doy) / 1460 + (yearStart y + doy) / 36524
      - (yearStart y + doy) / 146096) / 365 = y :=
    yearOf_eq hy (Nat.le_add_right _ _) hdoy (by omega)
  have hrest : yearStart y + doy - (365 * y + y / 4 - y / 100) = doy := by
    rw [← yearStart_lt hy, Nat.add_sub_cancel_left]
  unfold civil
  dsimp only
  rw [hdoe, hera, Int.toNat_natCast, hyear, hrest]
  rfl

theorem exists_dayOf (n : Int) : ∃ era y doy, y < 400 ∧ yearStart y + doy < yearStart (y + 1)
    ∧ n = dayOf era y doy := by
  have hlt : ((n + 719468) % 146097).toNat < yearStart 400 := by
    have hend : yearStart 400 = 146097 := rfl
    omega
  obtain ⟨y, hy, hle, hnext⟩ := exists_year 400 le_rfl _ hlt
  refine ⟨(n + 719468) / 146097, y, ((n + 719468) % 146097).toNat - yearStart y, hy, by omega, ?_⟩
  unfold dayOf
  omega

theorem isLeap_era (era : Int) (y : Nat) :
    Date.isLeap (y + era * 400 + 1) = Date.isLeap (y + 1 : Nat) := by
  unfold Date.isLeap
  have h4 : (y + era * 400 + 1) % 4 = ((y + 1 : Nat) : Int) % 4 := by omega
  have h100 : (y + era * 400 + 1) % 100 = ((y + 1 : Nat) : Int) % 100 := by omega
  have h400 : (y + era * 400 + 1) % 400 = ((y + 1 : Nat) : Int) % 400 := by omega
  rw [h4, h100, h400]

/-- A month is as long as in a leap year, but for a February of no leap
year. -/
theorem monthLength_of (leap : Bool) (m : Nat) :
    Date.monthLength leap m = if m = 2 ∧ leap = false then 28 else Date.monthLength true m := by
  unfold Date.monthLength
  cases leap with
  | true => simp
  | false =>
    by_cases hm : m = 2
    · simp [hm]
    · simp [hm]

theorem yearIn_feb (h : (monthDay doy).1 = 2) : yearIn era y doy = y + era * 400 + 1 := by
  unfold yearIn
  rw [if_pos (by omega)]

/-- The month of a day is as long as in a leap year, but for a February that is
not one's. -/
theorem monthLength_dayOf (era : Int) (y doy : Nat) :
    Date.monthLength (Date.isLeap (yearIn era y doy)) (monthDay doy).1 =
      if (monthDay doy).1 = 2 ∧ Date.isLeap (y + 1 : Nat) = false then 28
      else Date.monthLength true (monthDay doy).1 := by
  rw [monthLength_of]
  by_cases hfeb : (monthDay doy).1 = 2
  · rw [yearIn_feb hfeb, isLeap_era]
  · rw [if_neg fun h => hfeb h.1, if_neg fun h => hfeb h.1]

theorem doy_lt (hy : y < 400) (hdoy : yearStart y + doy < yearStart (y + 1)) :
    doy < 366 ∧ (Date.isLeap (y + 1 : Nat) = false → doy < 365) := by
  have hlen := (yearOf_ends y hy).2.2
  constructor
  · split at hlen <;> omega
  · intro hleap
    rw [hleap, if_neg Bool.false_ne_true] at hlen
    omega

theorem civil_valid (n : Int) : (civil n).Valid := by
  obtain ⟨era, y, doy, hy, hdoy, rfl⟩ := exists_dayOf n
  obtain ⟨hlt, hshort⟩ := doy_lt hy hdoy
  obtain ⟨hm, hm', hd, hd', hlast, -⟩ := monthDay_valid doy hlt
  rw [civil_dayOf hy hdoy]
  refine ⟨⟨hm, hm'⟩, hd, ?_⟩
  dsimp only
  rw [monthLength_dayOf]
  split
  · rename_i hfeb
    have hne : (monthDay doy).2 ≠ 29 := fun heq => by
      have hend := hlast hfeb.1 heq
      have := hshort hfeb.2
      omega
    have hlong : Date.monthLength true (monthDay doy).1 = 29 := by rw [hfeb.1]; rfl
    omega
  · exact hd'

/-- The first of March follows the last day of a year, in the same era or as
the first day of the next. -/
theorem civil_next_year (hy : y < 400) (hdoy : yearStart y + doy + 1 = yearStart (y + 1)) :
    civil (dayOf era y doy + 1) = ⟨y + era * 400 + 1, 3, 1⟩ := by
  by_cases hlast : y = 399
  · have hday : dayOf era y doy + 1 = dayOf (era + 1) 0 0 := by
      have hend : yearStart (y + 1) = 146097 := by rw [hlast]; rfl
      have hstart : yearStart 0 = 0 := rfl
      unfold dayOf
      omega
    have hzero : yearStart 0 + 0 < yearStart (0 + 1) := by decide
    rw [hday, civil_dayOf (by decide) hzero]
    have hyear : yearIn (era + 1) 0 0 = y + era * 400 + 1 := by
      show ((0 : Nat) : Int) + (era + 1) * 400 = _
      omega
    rw [hyear]
    rfl
  · have hday : dayOf era y doy + 1 = dayOf era (y + 1) 0 := by
      unfold dayOf
      omega
    have hlen := (yearOf_ends (y + 1) (by omega)).2.2
    rw [hday, civil_dayOf (by omega) (by omega)]
    have hyear : yearIn era (y + 1) 0 = y + era * 400 + 1 := by
      show ((y + 1 : Nat) : Int) + era * 400 = _
      omega
    rw [hyear]
    rfl

theorem monthDay_last (hy : y < 400) (hlast : yearStart y + doy + 1 = yearStart (y + 1)) :
    (monthDay doy).1 = 2
      ∧ (monthDay doy).2 = Date.monthLength (Date.isLeap (y + 1 : Nat)) (monthDay doy).1 := by
  have hlen := (yearOf_ends y hy).2.2
  cases hleap : Date.isLeap (y + 1 : Nat) with
  | true =>
    rw [hleap, if_pos rfl] at hlen
    obtain rfl : doy = 365 := by omega
    exact ⟨rfl, rfl⟩
  | false =>
    rw [hleap, if_neg Bool.false_ne_true] at hlen
    obtain rfl : doy = 364 := by omega
    exact ⟨rfl, rfl⟩

/-- Within a year the day after is the next day or the first of the next month. -/
theorem civil_next_day (hy : y < 400) (hnext : yearStart y + (doy + 1) < yearStart (y + 1)) :
    (⟨yearIn era y (doy + 1), (monthDay (doy + 1)).1, (monthDay (doy + 1)).2⟩ : Date) =
      Date.tomorrow ⟨yearIn era y doy, (monthDay doy).1, (monthDay doy).2⟩ := by
  obtain ⟨hlt, hshort⟩ := doy_lt hy hnext
  have hmd := monthDay_next doy (by omega)
  obtain ⟨-, hm, -, -, hfeb29, hfeb28⟩ := monthDay_valid doy (by omega)
  have hlen := monthLength_dayOf era y doy
  have hbound := (monthDay_valid doy (by omega)).2.2.2.1
  have hfeb : (monthDay doy).1 = 2 → Date.monthLength true (monthDay doy).1 = 29 := by
    intro h
    rw [h]
    rfl
  have hsame : (monthDay doy).2 < Date.monthLength (Date.isLeap (yearIn era y doy)) (monthDay doy).1
      ↔ (monthDay doy).2 < Date.monthLength true (monthDay doy).1 := by
    rw [hlen]
    split
    · rename_i h
      have hshort := hshort h.2
      have hlong := hfeb h.1
      have h29 := hfeb29 h.1
      have h28 := hfeb28 h.1
      omega
    · exact .rfl
  unfold Date.tomorrow yearIn
  unfold yearIn at hsame
  by_cases hday : (monthDay doy).2 < Date.monthLength true (monthDay doy).1
  · rw [if_pos hday] at hmd
    rw [if_pos (hsame.mpr hday), hmd]
  · rw [if_neg hday] at hmd
    rw [if_neg fun h => hday (hsame.mp h)]
    by_cases hmonth : (monthDay doy).1 < 12
    · rw [if_pos hmonth] at hmd
      rw [if_pos hmonth, hmd]
      have hnot : (monthDay doy).1 ≠ 2 := by
        intro h
        have hlong := hfeb h
        have h29 := hfeb29 h (by omega)
        omega
      have hiff : (monthDay doy).1 + 1 ≤ 2 ↔ (monthDay doy).1 ≤ 2 := by omega
      simp only [hiff]
    · rw [if_neg hmonth] at hmd
      rw [if_neg hmonth, hmd, if_pos (by decide), if_neg (by omega)]

theorem civil_next (n : Int) : civil (n + 1) = (civil n).tomorrow := by
  obtain ⟨era, y, doy, hy, hdoy, rfl⟩ := exists_dayOf n
  by_cases hlast : yearStart y + doy + 1 = yearStart (y + 1)
  · obtain ⟨hfeb, hend⟩ := monthDay_last hy hlast
    rw [civil_next_year hy hlast, civil_dayOf hy hdoy]
    unfold Date.tomorrow
    dsimp only
    rw [yearIn_feb hfeb, isLeap_era, if_neg (by omega), if_pos (by omega), hfeb]
  · have hnext : yearStart y + (doy + 1) < yearStart (y + 1) := by omega
    have hday : dayOf era y doy + 1 = dayOf era y (doy + 1) := by
      unfold dayOf
      omega
    rw [hday, civil_dayOf hy hnext, civil_dayOf hy hdoy]
    exact civil_next_day hy hnext

/-- The calendar that `civil` computes. -/
def civilCalendar : Calendar := ⟨civil, civil_valid, rfl, civil_next⟩

/-- There is one calendar. -/
theorem civil_eq (c : Calendar) (n : Int) : civil n = c.date n :=
  Calendar.unique civilCalendar c n

end Cron

end Zou
