import Zou.CronRecur

/-!
# The occurrences of a schedule

For a text of five fields the seconds it names are those of its minutes by
Vixie's rule, and `next_after` and `last_at_or_before` are to be the ones
next to a time. The code's rule for the day does not ask a starred field and
so takes the days that its set leaves out, its search ends after four years,
and its sums are of 64 and of 32 bits. `cron_occurrences` is exact about all
of them, for each time and for all the times of a text at once.
-/

namespace Zou

namespace Cron

/-- A second of 64 bits. -/
def Is64 (s : Int) : Prop := -2 ^ 63 ≤ s ∧ s < 2 ^ 63

/-- The seconds a line names, the first of its minutes. -/
def Line.Second (l : Line) (c : Calendar) (s : Int) : Prop :=
  ∃ m, s = m * 60 ∧ l.Names c vixieRule m ∧ Is64 s

/-- The next second with a property, if there is one. -/
def NextIs (q : Int → Prop) (unix : Int) (x : Outcome Unit (Option Int)) : Prop :=
  ∃ r, x = .ok r ∧ (∀ s, r = some s → q s ∧ unix < s ∧ ∀ s', q s' → unix < s' → s ≤ s')
    ∧ (r = none → ∀ s, q s → ¬ unix < s)

/-- The last second with a property, if there is one. -/
def LastIs (q : Int → Prop) (unix : Int) (x : Outcome Unit (Option Int)) : Prop :=
  ∃ r, x = .ok r ∧ (∀ s, r = some s → q s ∧ s ≤ unix ∧ ∀ s', q s' → s' ≤ unix → s' ≤ s)
    ∧ (r = none → ∀ s, q s → ¬ s ≤ unix)

/-- The text is read without a step past 32 bits, and what it is read as
gives the seconds next to a time. -/
structure Occurs (c : Calendar) (text : Text) (unix : Int) : Prop where
  read : parse text ≠ .panicked
  next : ∀ l f, lineFor text = some l → parse text = .ok (.fields f) →
    NextIs (l.Second c) unix ((Schedule.fields f).nextAfter unix)
  last : ∀ l f, lineFor text = some l → parse text = .ok (.fields f) →
    LastIs (l.Second c) unix ((Schedule.fields f).lastAtOrBefore unix)

/-- The minutes of the seconds a line names. -/
def Line.Minute (l : Line) (c : Calendar) (m : Int) : Prop :=
  l.Names c vixieRule m ∧ Is64 (m * 60)

variable {l : Line} {c : Calendar}

theorem Line.second_mul {m : Int} : l.Second c (m * 60) ↔ l.Minute c m := by
  constructor
  · rintro ⟨m', heq, hnames, h64⟩
    obtain rfl : m = m' := by omega
    exact ⟨hnames, h64⟩
  · exact fun h => ⟨m, rfl, h⟩

/-- Up from the minute after a time: a minute on a day that is left out, or
of a second past 64 bits, comes after one of the line's, and a line of 29
Februaries names one of them within the search if it does beyond. -/
structure Line.Ahead (l : Line) (c : Calendar) (unix : Int) : Prop where
  stray : ∀ m, unix / 60 + 1 ≤ m → m < unix / 60 + 1 + window → l.Names c starRule m →
    l.LeftOut c (m / 60 / 24) ∨ ¬ Is64 (m * 60) → ∃ k, unix / 60 + 1 ≤ k ∧ k < m ∧ l.Minute c k
  leap : l.LeapDayOnly → ∀ m, unix / 60 + 1 + window ≤ m → l.Minute c m →
    ∃ k, unix / 60 + 1 ≤ k ∧ k < unix / 60 + 1 + window ∧ l.Names c starRule k

/-- The same down from the minute of a time. -/
structure Line.Behind (l : Line) (c : Calendar) (unix : Int) : Prop where
  stray : ∀ m, m ≤ unix / 60 → unix / 60 - window < m → l.Names c starRule m →
    l.LeftOut c (m / 60 / 24) ∨ ¬ Is64 (m * 60) → ∃ k, m < k ∧ k ≤ unix / 60 ∧ l.Minute c k
  leap : l.LeapDayOnly → ∀ m, m ≤ unix / 60 - window → l.Minute c m →
    ∃ k, k ≤ unix / 60 ∧ unix / 60 - window < k ∧ l.Names c starRule k

/-- No day the line names by the code's rule is left out, and it names more
than 29 Februaries if it names anything. -/
structure Line.Plain (l : Line) (c : Calendar) : Prop where
  kept : ∀ m, l.Names c starRule m → ¬ l.LeftOut c (m / 60 / 24)
  leap : l.LeapDayOnly → ∀ m, ¬ l.Names c starRule m

theorem Line.minute_iff {m : Int} :
    l.Minute c m ↔ l.Names c starRule m ∧ ¬ (l.LeftOut c (m / 60 / 24) ∨ ¬ Is64 (m * 60)) := by
  unfold Line.Minute
  rw [Line.names_vixie, not_or, not_not, and_assoc]

theorem Line.not_minute {m : Int} (h : l.Names c starRule m) :
    ¬ l.Minute c m ↔ l.LeftOut c (m / 60 / 24) ∨ ¬ Is64 (m * 60) := by
  rw [Line.minute_iff, and_iff_right h, not_not]

/-- No step of the ranges that are read goes past 32 bits. -/
def StepsFit (text : Text) : Prop := ∀ l, lineFor text = some l → ∀ r ∈ l.ranges, ¬ r.Over

theorem i64_ok {n : Int} (h : Is64 n) : i64 n = .ok n := if_pos h

theorem i64_panicked {n : Int} (h : ¬ Is64 n) : i64 n = .panicked := if_neg h

theorem secondOf_eq_ok {o r : Option Int} :
    secondOf o = .ok r ↔ r = o.map (· * 60) ∧ ∀ m, o = some m → Is64 (m * 60) := by
  cases o with
  | none =>
    constructor
    · intro h
      cases h
      exact ⟨rfl, nofun⟩
    · rintro ⟨rfl, -⟩
      rfl
  | some m =>
    by_cases h64 : Is64 (m * 60)
    · have hsecond : secondOf (some m) = .ok (some (m * 60)) := by
        rw [secondOf, i64_ok h64]
        rfl
      rw [hsecond, Outcome.ok.injEq]
      constructor
      · rintro rfl
        exact ⟨rfl, fun m' hm => (Option.some.inj hm) ▸ h64⟩
      · rintro ⟨rfl, -⟩
        rfl
    · have hsecond : secondOf (some m) = .panicked := by
        rw [secondOf, i64_panicked h64]
        rfl
      rw [hsecond]
      exact ⟨nofun, fun h => absurd (h.2 m rfl) h64⟩

/-- Fields with nothing in one of them are not searched, which finds the
same. -/
theorem nextAfter_eq (f : Fields) (unix : Int) :
    f.nextAfter unix = secondOf (Search.up f.matchesAt window (unix / 60 + 1)) := by
  unfold Fields.nextAfter
  split
  · rename_i h
    rw [Search.up_eq_none.mpr fun k _ _ => by rw [matchesAt_empty h]; exact Bool.false_ne_true]
    rfl
  · rfl

theorem lastAtOrBefore_eq (f : Fields) (unix : Int) :
    f.lastAtOrBefore unix = secondOf (Search.down f.matchesAt window (unix / 60)) := by
  unfold Fields.lastAtOrBefore
  split
  · rename_i h
    rw [Search.down_eq_none.mpr fun k _ _ => by rw [matchesAt_empty h]; exact Bool.false_ne_true]
    rfl
  · rfl

/-- The schedule's next second is right where the search finds the first of
the line's minutes. -/
theorem nextIs_iff (f : Fields) (l : Line) (c : Calendar) (unix : Int) :
    NextIs (l.Second c) unix (f.nextAfter unix)
      ↔ (∀ m, Search.up f.matchesAt window (unix / 60 + 1) = some m →
          Search.IsFirst (l.Minute c) (unix / 60 + 1) m)
        ∧ (Search.up f.matchesAt window (unix / 60 + 1) = none →
          ∀ k, unix / 60 + 1 ≤ k → ¬ l.Minute c k) := by
  rw [nextAfter_eq]
  unfold NextIs
  constructor
  · rintro ⟨r, hok, hsome, hnone⟩
    obtain ⟨rfl, hfits⟩ := secondOf_eq_ok.mp hok
    constructor
    · intro m hm
      obtain ⟨hsecond, hlt, hleast⟩ := hsome (m * 60) (by rw [hm]; rfl)
      refine ⟨by omega, Line.second_mul.mp hsecond, fun k hk hkm hkq => ?_⟩
      have hle := hleast (k * 60) (Line.second_mul.mpr hkq) (by omega)
      omega
    · intro hm k hk hkq
      exact hnone (by rw [hm]; rfl) (k * 60) (Line.second_mul.mpr hkq) (by omega)
  · rintro ⟨hsome, hnone⟩
    have hfits : ∀ m, Search.up f.matchesAt window (unix / 60 + 1) = some m → Is64 (m * 60) :=
      fun m hm => (hsome m hm).2.1.2
    refine ⟨_, secondOf_eq_ok.mpr ⟨rfl, hfits⟩, fun s hs => ?_, fun hs s hq hlt => ?_⟩
    · obtain ⟨m, hm, rfl⟩ := Option.map_eq_some_iff.mp hs
      obtain ⟨hle, hq, hfirst⟩ := hsome m hm
      refine ⟨Line.second_mul.mpr hq, by omega, fun s' hq' hlt => ?_⟩
      obtain ⟨k, rfl, hk⟩ := hq'
      refine Decidable.byContradiction fun hnot => ?_
      exact hfirst k (by omega) (by omega) hk
    · obtain ⟨k, rfl, hk⟩ := hq
      exact hnone (Option.map_eq_none_iff.mp hs) k (by omega) hk

theorem lastIs_iff (f : Fields) (l : Line) (c : Calendar) (unix : Int) :
    LastIs (l.Second c) unix (f.lastAtOrBefore unix)
      ↔ (∀ m, Search.down f.matchesAt window (unix / 60) = some m →
          Search.IsLast (l.Minute c) (unix / 60) m)
        ∧ (Search.down f.matchesAt window (unix / 60) = none →
          ∀ k, k ≤ unix / 60 → ¬ l.Minute c k) := by
  rw [lastAtOrBefore_eq]
  unfold LastIs
  constructor
  · rintro ⟨r, hok, hsome, hnone⟩
    obtain ⟨rfl, hfits⟩ := secondOf_eq_ok.mp hok
    constructor
    · intro m hm
      obtain ⟨hsecond, hlt, hlast⟩ := hsome (m * 60) (by rw [hm]; rfl)
      refine ⟨by omega, Line.second_mul.mp hsecond, fun k hk hkm hkq => ?_⟩
      have hle := hlast (k * 60) (Line.second_mul.mpr hkq) (by omega)
      omega
    · intro hm k hk hkq
      exact hnone (by rw [hm]; rfl) (k * 60) (Line.second_mul.mpr hkq) (by omega)
  · rintro ⟨hsome, hnone⟩
    have hfits : ∀ m, Search.down f.matchesAt window (unix / 60) = some m → Is64 (m * 60) :=
      fun m hm => (hsome m hm).2.1.2
    refine ⟨_, secondOf_eq_ok.mpr ⟨rfl, hfits⟩, fun s hs => ?_, fun hs s hq hlt => ?_⟩
    · obtain ⟨m, hm, rfl⟩ := Option.map_eq_some_iff.mp hs
      obtain ⟨hle, hq, hlast⟩ := hsome m hm
      refine ⟨Line.second_mul.mpr hq, by omega, fun s' hq' hlt => ?_⟩
      obtain ⟨k, rfl, hk⟩ := hq'
      refine Decidable.byContradiction fun hnot => ?_
      exact hlast k (by omega) (by omega) hk
    · obtain ⟨k, rfl, hk⟩ := hq
      exact hnone (Option.map_eq_none_iff.mp hs) k (by omega) hk

theorem ahead_iff {f : Fields} (h : f.Reads l) (c : Calendar) (unix : Int) :
    NextIs (l.Second c) unix (f.nextAfter unix) ↔ l.Ahead c unix := by
  have hp : ∀ m, f.matchesAt m = true ↔ l.Names c starRule m := fun m => matchesAt_iff h c m
  rw [nextIs_iff, Search.up_finds fun k hk => (hp k).mpr (Line.minute_iff.mp hk).1]
  simp only [hp]
  constructor
  · rintro ⟨hstray, hbeyond⟩
    exact ⟨fun m hle hlt hm hno => hstray m hle hlt hm ((Line.not_minute hm).mpr hno),
      fun _ => hbeyond⟩
  · rintro ⟨hstray, hleap⟩
    refine ⟨fun m hle hlt hm hno => hstray m hle hlt hm ((Line.not_minute hm).mp hno),
      fun m hm hq => ?_⟩
    by_cases hl : l.LeapDayOnly
    · exact hleap hl m hm hq
    · -- Any other line comes round well within the search.
      obtain ⟨k, hle, hlt, hk⟩ := Line.recurs hl (Line.minute_iff.mp hq).1 (unix / 60 + 1)
      have hwindow : 374 * 1440 < window := by decide
      exact ⟨k, hle, by omega, hk⟩

theorem behind_iff {f : Fields} (h : f.Reads l) (c : Calendar) (unix : Int) :
    LastIs (l.Second c) unix (f.lastAtOrBefore unix) ↔ l.Behind c unix := by
  have hp : ∀ m, f.matchesAt m = true ↔ l.Names c starRule m := fun m => matchesAt_iff h c m
  rw [lastIs_iff, Search.down_finds fun k hk => (hp k).mpr (Line.minute_iff.mp hk).1]
  simp only [hp]
  constructor
  · rintro ⟨hstray, hbeyond⟩
    exact ⟨fun m hle hlt hm hno => hstray m hle hlt hm ((Line.not_minute hm).mpr hno),
      fun _ => hbeyond⟩
  · rintro ⟨hstray, hleap⟩
    refine ⟨fun m hle hlt hm hno => hstray m hle hlt hm ((Line.not_minute hm).mp hno),
      fun m hm hq => ?_⟩
    by_cases hl : l.LeapDayOnly
    · exact hleap hl m hm hq
    · obtain ⟨k, hle, hlt, hk⟩ :=
        Line.recurs hl (Line.minute_iff.mp hq).1 (unix / 60 - 374 * 1440 + 1)
      have hwindow : 374 * 1440 < window := by decide
      exact ⟨k, by omega, by omega, hk⟩

/-- A text is read without running over exactly where its steps fit. -/
theorem parse_fits (text : Text) : parse text ≠ .panicked ↔ StepsFit text := by
  rcases parse_spec text with ⟨hnone, hno, -⟩ | ⟨l, hl, htried⟩
  · refine ⟨fun _ l hl => ?_, fun _ => hno⟩
    rw [hnone] at hl
    cases hl
  · have hstep : StepsFit text ↔ ∀ r ∈ l.ranges, ¬ r.Over := by
      refine ⟨fun h => h l hl, fun h l' hl' => ?_⟩
      cases hl.symm.trans hl'
      exact h
    rw [hstep]
    rcases htried with ⟨hpanic, r, hr, hover⟩ | ⟨hfits, ⟨-, a, ha, -⟩ | ⟨-, herr⟩⟩
    · exact ⟨fun h => absurd hpanic h, fun h => absurd hover (h r hr)⟩
    · exact ⟨fun _ => hfits, fun _ => by rw [ha]; simp⟩
    · exact ⟨fun _ => hfits, fun _ => by rw [herr]; simp⟩

theorem occurs_iff (c : Calendar) (text : Text) (unix : Int) : Occurs c text unix ↔ StepsFit text
      ∧ ∀ l f, lineFor text = some l → parse text = .ok (.fields f) →
        l.Ahead c unix ∧ l.Behind c unix := by
  have hreads : ∀ l f, lineFor text = some l → parse text = .ok (.fields f) → f.Reads l := by
    intro l f hl hf
    rcases parse_spec text with ⟨hnone, -⟩ | ⟨l', hl', htried⟩
    · rw [hnone] at hl
      cases hl
    · cases hl.symm.trans hl'
      rcases htried with ⟨hpanic, -⟩ | ⟨-, ⟨-, a, ha, f', rfl, hread⟩ | ⟨-, herr⟩⟩
      · rw [hf] at hpanic
        cases hpanic
      · rw [hf] at ha
        cases ha
        exact hread
      · rw [hf] at herr
        cases herr
  constructor
  · rintro ⟨hread, hnext, hlast⟩
    refine ⟨(parse_fits text).mp hread, fun l f hl hf => ?_⟩
    exact ⟨(ahead_iff (hreads l f hl hf) c unix).mp (hnext l f hl hf),
      (behind_iff (hreads l f hl hf) c unix).mp (hlast l f hl hf)⟩
  · rintro ⟨hsteps, hclear⟩
    refine ⟨(parse_fits text).mpr hsteps, fun l f hl hf => ?_, fun l f hl hf => ?_⟩
    · exact (ahead_iff (hreads l f hl hf) c unix).mpr (hclear l f hl hf).1
    · exact (behind_iff (hreads l f hl hf) c unix).mpr (hclear l f hl hf).2

/-- A plain line is right at every time that is not near the end of 64
bits. -/
theorem Line.Plain.clear (h : l.Plain c) {unix : Int}
    (hlo : -2 ^ 62 ≤ unix) (hhi : unix < 2 ^ 62) : l.Ahead c unix ∧ l.Behind c unix := by
  have hwindow : window = 2108160 := rfl
  have h64 : ∀ m, unix / 60 - window < m → m < unix / 60 + 1 + window → Is64 (m * 60) := by
    intro m hle hlt
    constructor <;> omega
  have hnone : l.LeapDayOnly → ∀ m, ¬ l.Minute c m :=
    fun hl m hm => h.leap hl m (Line.minute_iff.mp hm).1
  constructor
  · exact ⟨fun m hle hlt hm hno => (hno.elim (h.kept m hm) fun hn =>
      hn (h64 m (by omega) hlt)).elim, fun hl m _ hm => absurd hm (hnone hl m)⟩
  · exact ⟨fun m hle hlt hm hno => (hno.elim (h.kept m hm) fun hn =>
      hn (h64 m hlt (by omega))).elim, fun hl m _ hm => absurd hm (hnone hl m)⟩

/-- A line that is right at every time has nothing left out, for it would be
next somewhere in the four hundred years from 1970, and next after February
2096 it names a minute in time. -/
theorem Line.Plain.of_ahead
    (h : ∀ unix : Int, -2 ^ 62 ≤ unix → unix < 2 ^ 62 → l.Ahead c unix) : l.Plain c := by
  have hkept : ∀ m, l.Names c starRule m → ¬ l.LeftOut c (m / 60 / 24) := by
    intro m hm hout
    obtain ⟨hnames, hera⟩ := Line.names_era hm
    have hwindow : window = 2108160 := rfl
    have hstart : (m % (146097 * 1440) - 1) * 60 / 60 + 1 = m % (146097 * 1440) := by omega
    obtain ⟨k, hle, hlt, -⟩ := (h ((m % (146097 * 1440) - 1) * 60) (by omega) (by omega)).stray
      (m % (146097 * 1440)) (by omega) (by omega) hnames (.inl (hera hout))
    omega
  refine ⟨hkept, fun hl m hm => ?_⟩
  obtain ⟨hnone, m', hle, hlt, hm'⟩ := hl.century hm
  have hmarch : march2096 = 46081 := rfl
  have hwindow : window = 2108160 := rfl
  have h64 : Is64 (m' * 60) := by constructor <;> omega
  obtain ⟨k, hk, hkw, hnames⟩ := (h ((march2096 * 1440 - 1) * 60) (by omega) (by omega)).leap hl m'
    (by omega) (Line.minute_iff.mpr ⟨hm', not_or.mpr ⟨hkept m' hm', not_not.mpr h64⟩⟩)
  exact hnone k (by omega) (by omega) hnames

/-- A schedule's next and last seconds are right where its steps fit and,
each way, no minute that Vixie's rule or 64 bits leave out comes first and no
29 February is too far. They are right at every time that is not near the end
of 64 bits exactly for the lines that name no day they leave out, nor the 29
February alone. -/
theorem cron_occurrences (c : Calendar) (text : Text) : (∀ unix, Occurs c text unix ↔ StepsFit text
      ∧ ∀ l f, lineFor text = some l → parse text = .ok (.fields f) →
        l.Ahead c unix ∧ l.Behind c unix)
    ∧ ((∀ unix : Int, -2 ^ 62 ≤ unix → unix < 2 ^ 62 → Occurs c text unix) ↔ StepsFit text
      ∧ ∀ l f, lineFor text = some l → parse text = .ok (.fields f) → l.Plain c) := by
  refine ⟨occurs_iff c text, fun h => ?_, ?_⟩
  · have hclear := fun unix hlo hhi => (occurs_iff c text unix).mp (h unix hlo hhi)
    refine ⟨(hclear 0 (by decide) (by decide)).1, fun l f hl hf => ?_⟩
    exact Line.Plain.of_ahead fun unix hlo hhi => ((hclear unix hlo hhi).2 l f hl hf).1
  · rintro ⟨hsteps, hplain⟩ unix hlo hhi
    exact (occurs_iff c text unix).mpr
      ⟨hsteps, fun l f hl hf => (hplain l f hl hf).clear hlo hhi⟩

/-- Every minute of the odd days of a month. -/
def oddDays : Text := "* * */2 * *".toList

def oddDaysFields : Fields :=
  ⟨2 ^ 60 - 1, 2 ^ 24 - 1, 0xaaaaaaaa, 2 ^ 13 - 2, 2 ^ 7 - 1, true, true⟩

theorem oddDays_read : parse oddDays = .ok (.fields oddDaysFields) := by
  decide +kernel

theorem oddDays_line :
    lineFor oddDays = some ⟨['*'], ['*'], "*/2".toList, ['*'], ['*']⟩ := by
  rfl

/-- The second of January 1970 is no odd day, and is what comes next. -/
theorem stepped_star_any_day : ¬ Occurs civilCalendar oddDays 86340 := by
  rintro ⟨-, hnext, -⟩
  obtain ⟨r, hr, hsome, -⟩ := hnext _ _ oddDays_line oddDays_read
  have hup : Search.up oddDaysFields.matchesAt window (86340 / 60 + 1) = some 1440 :=
    Search.up_eq_some.mpr ⟨by decide, by decide, by decide +kernel, fun k hk hlt => by omega⟩
  have hok : oddDaysFields.nextAfter 86340 = .ok (some (1440 * 60)) := by
    rw [nextAfter_eq, hup]
    rfl
  have heq : (Schedule.fields oddDaysFields).nextAfter 86340 = .ok (some (1440 * 60)) := hok
  rw [heq, Outcome.ok.injEq] at hr
  obtain ⟨hsecond, -⟩ := hsome _ hr.symm
  obtain ⟨-, -, -, hday, -⟩ := (Line.second_mul.mp hsecond).1
  obtain ⟨part, hpart, r, hrange, k, hk, -⟩ := hday
  have hparts : parts "*/2".toList = ["*/2".toList] := by decide +kernel
  rw [hparts] at hpart
  cases List.mem_singleton.mp hpart
  have hodd : domBounds.range "*/2".toList = some ⟨1, 31, 2⟩ := by rfl
  rw [hodd] at hrange
  cases hrange
  have hsecondDay : (civilCalendar.date (1440 / 60 / 24)).day = 2 := by decide +kernel
  rw [hsecondDay] at hk
  dsimp only at hk
  omega

end Cron

end Zou
