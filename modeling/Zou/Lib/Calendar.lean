import Mathlib.Algebra.Order.Ring.Nat

/-!
# The calendar

Days counted from the first of January 1970, and their dates by the leap
rule of the Gregorian calendar: a calendar gives a valid date to every day,
and the next day has tomorrow's. There is one.
-/

/-- A day of a month of a year. -/
structure Date where
  year : Int
  month : Nat
  day : Nat
  deriving DecidableEq

namespace Date

/-- A fourth year, of the hundredth ones only the four hundredth. -/
def isLeap (y : Int) : Bool := y % 4 = 0 && (y % 100 ≠ 0 || y % 400 = 0)

def monthLength (leap : Bool) (m : Nat) : Nat :=
  if m = 2 then (if leap then 29 else 28)
  else if m = 4 ∨ m = 6 ∨ m = 9 ∨ m = 11 then 30 else 31

structure Valid (d : Date) : Prop where
  month : 1 ≤ d.month ∧ d.month ≤ 12
  day : 1 ≤ d.day ∧ d.day ≤ monthLength (isLeap d.year) d.month

def tomorrow (d : Date) : Date :=
  if d.day < monthLength (isLeap d.year) d.month then { d with day := d.day + 1 }
  else if d.month < 12 then ⟨d.year, d.month + 1, 1⟩
  else ⟨d.year + 1, 1, 1⟩

/-- What tomorrow is: a later day of the month, a first of the next month or
a first of January. -/
theorem tomorrow_cases {d : Date} (h : d.Valid) :
    (d.day < monthLength (isLeap d.year) d.month ∧ d.tomorrow = ⟨d.year, d.month, d.day + 1⟩)
      ∨ (d.day = monthLength (isLeap d.year) d.month ∧ d.month < 12
        ∧ d.tomorrow = ⟨d.year, d.month + 1, 1⟩)
      ∨ (d.day = monthLength (isLeap d.year) d.month ∧ d.month = 12
        ∧ d.tomorrow = ⟨d.year + 1, 1, 1⟩) := by
  unfold tomorrow
  by_cases hday : d.day < monthLength (isLeap d.year) d.month
  · exact .inl ⟨hday, if_pos hday⟩
  · have hlast := Nat.le_antisymm h.day.2 (Nat.le_of_not_lt hday)
    rw [if_neg hday]
    by_cases hmonth : d.month < 12
    · exact .inr (.inl ⟨hlast, hmonth, if_pos hmonth⟩)
    · exact .inr (.inr ⟨hlast, Nat.le_antisymm h.month.2 (Nat.le_of_not_lt hmonth),
        if_neg hmonth⟩)

theorem ext_of {a b : Date} (hy : a.year = b.year) (hm : a.month = b.month)
    (hd : a.day = b.day) : a = b := by
  cases a
  cases b
  cases hy
  cases hm
  cases hd
  rfl

/-- A day has one yesterday. -/
theorem tomorrow_injective {a b : Date} (ha : a.Valid) (hb : b.Valid)
    (h : a.tomorrow = b.tomorrow) : a = b := by
  have hda := ha.day.1
  have hdb := hb.day.1
  have hma := ha.month.1
  have hmb := hb.month.1
  rcases tomorrow_cases ha with ⟨-, ha⟩ | ⟨hla, -, ha⟩ | ⟨hla, hla', ha⟩ <;>
    rcases tomorrow_cases hb with ⟨-, hb⟩ | ⟨hlb, -, hb⟩ | ⟨hlb, hlb', hb⟩ <;>
    rw [ha, hb, Date.mk.injEq] at h <;> obtain ⟨hy, hm, hd⟩ := h
  · exact ext_of hy hm (Nat.succ.inj hd)
  · omega
  · omega
  · omega
  · have hm := Nat.succ.inj hm
    exact ext_of hy hm (by rw [hla, hlb, hy, hm])
  · omega
  · omega
  · omega
  · have hy : a.year = b.year := by omega
    have hm : a.month = b.month := by omega
    exact ext_of hy hm (by rw [hla, hlb, hy, hm])

/-- No year has a shorter month than one that is no leap year, and none a
longer one than a leap year. -/
theorem monthLength_bounds (leap : Bool) (m : Nat) :
    monthLength false m ≤ monthLength leap m ∧ monthLength leap m ≤ monthLength true m
      ∧ 28 ≤ monthLength false m ∧ monthLength true m ≤ 31 := by
  unfold monthLength
  cases leap <;> split <;> [skip; split; skip; split] <;> simp

end Date

/-- A date for every day, tomorrow's for the next one. -/
structure Calendar where
  date : Int → Date
  valid : ∀ n, (date n).Valid
  epoch : date 0 = ⟨1970, 1, 1⟩
  next : ∀ n, date (n + 1) = (date n).tomorrow

/-- There is one calendar. -/
theorem Calendar.unique (a b : Calendar) (n : Int) : a.date n = b.date n := by
  induction n with
  | zero => rw [a.epoch, b.epoch]
  | succ n ih => rw [a.next, b.next, ih]
  | pred n ih =>
    have hnext : ∀ c : Calendar, c.date (-n) = (c.date (-n - 1)).tomorrow := by
      intro c
      rw [← c.next, Int.sub_add_cancel]
    rw [hnext a, hnext b] at ih
    exact Date.tomorrow_injective (a.valid _) (b.valid _) ih

/-- Days of a month come one after the other, as far as every year has
them. -/
theorem Calendar.date_add (c : Calendar) {n : Int} {j : Nat}
    (h : (c.date n).day + j ≤ Date.monthLength false (c.date n).month) :
    c.date (n + j) = ⟨(c.date n).year, (c.date n).month, (c.date n).day + j⟩ := by
  induction j with
  | zero => simp
  | succ j ih =>
    have hlong := (Date.monthLength_bounds (Date.isLeap (c.date n).year) (c.date n).month).1
    have hnext : c.date (n + (j + 1 : Nat)) = (c.date (n + j)).tomorrow := by
      rw [← c.next, Int.add_assoc]
      rfl
    rw [hnext, ih (by omega), Date.tomorrow, if_pos (by dsimp only; omega)]
    rfl
