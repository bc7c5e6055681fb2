import Zou.CronCivil

/-!
# What the fields of a schedule denote

A part of a field is a range, and a range goes from its first value up in
steps. The bits of a field are the values its parts denote, while no step
carries the counter past 32 bits. With the calendar, a minute matches the
fields where its minute, hour and month are denoted and its day by the rule
of the two day fields that `matches` has.
-/

namespace Zou

namespace Cron

open GcLock (trimText)

/-! ## Ranges and lists -/

/-- The values of a range. -/
def Range.Holds (r : Range) (v : Nat) : Prop := ∃ k, v = r.first + k * r.step ∧ v ≤ r.last

/-- A step past 32 bits. -/
def Range.Over (r : Range) : Prop := ∃ v, r.Holds v ∧ 2 ^ 32 ≤ v + r.step

/-- What a field and its parts are read with. -/
structure Bounds where
  lo : Nat
  hi : Nat
  names : Option (List Text)

/-- An empty part is no range. -/
def Bounds.range (b : Bounds) (part : Text) : Option Range :=
  if part = [] then none else Cron.range b.lo b.hi b.names part

def parts (field : Text) : List Text := (field.takeWhile listChar).splitOn ','

/-- A value is in the range of one of the parts. -/
def Bounds.Denotes (b : Bounds) (field : Text) (v : Nat) : Prop :=
  ∃ part ∈ parts field, ∃ r, b.range part = some r ∧ r.Holds v

/-- The ranges of parts, up to the first part that is none. -/
def Bounds.ranges (b : Bounds) : List Text → List Range
  | [] => []
  | part :: parts =>
    match b.range part with
    | none => []
    | some r => r :: b.ranges parts

/-- Every part is a range. -/
def Bounds.wellFormed (b : Bounds) (field : Text) : Bool :=
  (parts field).all fun part => (b.range part).isSome

theorem value_bounds {text : Text} {lo hi v : Nat} {names : Option (List Text)}
    (h : value text lo hi names = some v) : lo ≤ v ∧ v ≤ hi := by
  have hbounds := (Option.filter_eq_some_iff.mp h).2
  simpa using hbounds

theorem bodyStep_pos {part body : Text} {step : Nat} (h : bodyStep part = some (body, step)) :
    0 < step := by
  unfold bodyStep at h
  split at h
  · obtain ⟨n, -, h⟩ := Option.bind_eq_some_iff.mp h
    split at h
    · cases h
    · rename_i hne
      cases h
      exact Nat.pos_of_ne_zero hne
  · cases h
    decide

theorem range_bounds {lo hi : Nat} {names : Option (List Text)} {part : Text} {r : Range}
    (h : range lo hi names part = some r) : 0 < r.step ∧ r.last ≤ hi := by
  obtain ⟨⟨body, step⟩, hstep, h⟩ := Option.bind_eq_some_iff.mp h
  have hpos := bodyStep_pos hstep
  dsimp only at h
  split at h
  · obtain rfl := Option.some.inj h
    exact ⟨hpos, le_rfl⟩
  · split at h
    · obtain ⟨first, hfirst, h⟩ := Option.bind_eq_some_iff.mp h
      split at h
      · cases h
      · cases h
        exact ⟨hpos, (value_bounds hfirst).2⟩
    · obtain ⟨first, -, h⟩ := Option.bind_eq_some_iff.mp h
      obtain ⟨second, hsecond, rfl⟩ := Option.map_eq_some_iff.mp h
      exact ⟨hpos, (value_bounds hsecond).2⟩
    · cases h

/-! ## Bits -/

theorem testBit_or_shift (bits i v : Nat) :
    (bits ||| 1 <<< i).testBit v = (bits.testBit v || decide (v = i)) := by
  rw [Nat.testBit_or, Nat.one_shiftLeft, Nat.testBit_two_pow]
  simp only [eq_comm]

/-- The values of a range from `i` on. -/
def Range.From (r : Range) (i v : Nat) : Prop := ∃ k, v = i + k * r.step ∧ v ≤ r.last

theorem Range.from_next {r : Range} {i v : Nat} :
    r.From i v ↔ (v = i ∧ i ≤ r.last) ∨ r.From (i + r.step) v := by
  constructor
  · rintro ⟨k, rfl, hle⟩
    cases k with
    | zero => exact .inl ⟨by omega, by omega⟩
    | succ k => exact .inr ⟨k, by rw [Nat.succ_mul]; omega, hle⟩
  · rintro (⟨rfl, hle⟩ | ⟨k, rfl, hle⟩)
    · exact ⟨0, by omega, hle⟩
    · exact ⟨k + 1, by rw [Nat.succ_mul]; omega, hle⟩

theorem fill_spec {r : Range} (hstep : 0 < r.step) {fuel i : Nat} (hfuel : r.last < i + fuel)
    (bits : Nat) : (fill r fuel i bits = .panicked ∧ ∃ v, r.From i v ∧ 2 ^ 32 ≤ v + r.step)
      ∨ ∃ bits', fill r fuel i bits = .ok bits' ∧ (∀ v, r.From i v → v + r.step < 2 ^ 32)
        ∧ ∀ v, bits'.testBit v = true ↔ bits.testBit v = true ∨ r.From i v := by
  induction fuel generalizing i bits with
  | zero =>
    have hnone : ∀ v, ¬ r.From i v := by
      rintro v ⟨k, rfl, hle⟩
      omega
    exact .inr ⟨bits, rfl, fun v h => absurd h (hnone v), fun v => by simp [hnone v]⟩
  | succ fuel ih =>
    rw [fill]
    by_cases hle : i ≤ r.last
    · rw [if_pos hle]
      by_cases hsum : i + r.step < 2 ^ 32
      · rw [if_pos hsum]
        rcases ih (i := i + r.step) (by omega) (bits ||| 1 <<< i) with
          ⟨hpanic, v, hv, hover⟩ | ⟨bits', hok, hfits, hbits⟩
        · exact .inl ⟨hpanic, v, Range.from_next.mpr (.inr hv), hover⟩
        · refine .inr ⟨bits', hok, fun v hv => ?_, fun v => ?_⟩
          · rcases Range.from_next.mp hv with ⟨rfl, -⟩ | hv
            · exact hsum
            · exact hfits v hv
          · rw [hbits, testBit_or_shift, Range.from_next (i := i), Bool.or_eq_true,
              decide_eq_true_iff, or_assoc]
            simp only [hle, and_true]
      · rw [if_neg hsum]
        exact .inl ⟨rfl, i, ⟨0, by omega, hle⟩, by omega⟩
    · rw [if_neg hle]
      have hnone : ∀ v, ¬ r.From i v := by
        rintro v ⟨k, rfl, hlast⟩
        omega
      exact .inr ⟨bits, rfl, fun v h => absurd h (hnone v), fun v => by simp [hnone v]⟩

/-! ## Fields -/

/-- A list of parts that is read with a value in it or not. -/
def Bounds.Listed (b : Bounds) (ps : List Text) (v : Nat) : Prop :=
  ∃ part ∈ ps, ∃ r, b.range part = some r ∧ r.Holds v

section Parts

variable {b : Bounds} {part : Text} {r : Range}

theorem Bounds.range_some (h : b.range part = some r) :
    part ≠ [] ∧ Cron.range b.lo b.hi b.names part = some r := by
  unfold Bounds.range at h
  split at h
  · cases h
  · rename_i hne
    exact ⟨hne, h⟩

theorem setParts_none (h : b.range part = none) (ps : List Text) (bits : Nat) :
    setParts b.lo b.hi b.names (part :: ps) bits = .err () := by
  unfold Bounds.range at h
  rw [setParts]
  split at h
  · rename_i hnil
    rw [if_pos hnil]
  · rename_i hne
    rw [if_neg hne, h]

theorem setParts_some (h : b.range part = some r) (ps : List Text) (bits : Nat) :
    setParts b.lo b.hi b.names (part :: ps) bits =
      fill r (r.last + 1) r.first bits >>= setParts b.lo b.hi b.names ps := by
  obtain ⟨hne, hr⟩ := Bounds.range_some h
  rw [setParts, if_neg hne, hr]

theorem ranges_none (h : b.range part = none) (ps : List Text) : b.ranges (part :: ps) = [] := by
  rw [Bounds.ranges, h]

theorem ranges_some (h : b.range part = some r) (ps : List Text) :
    b.ranges (part :: ps) = r :: b.ranges ps := by
  rw [Bounds.ranges, h]

end Parts

/-- What reading the parts of a field does: it runs over in a step, or it
refuses what is no range, or it puts the values to the bits. -/
theorem setParts_spec (b : Bounds) (ps : List Text) (bits : Nat) :
    (setParts b.lo b.hi b.names ps bits = .panicked ∧ ∃ r ∈ b.ranges ps, r.Over)
      ∨ ((∀ r ∈ b.ranges ps, ¬ r.Over)
        ∧ ((ps.all (fun part => (b.range part).isSome) = true
            ∧ ∃ bits', setParts b.lo b.hi b.names ps bits = .ok bits'
              ∧ ∀ v, bits'.testBit v = true ↔ bits.testBit v = true ∨ b.Listed ps v)
          ∨ (ps.all (fun part => (b.range part).isSome) = false
            ∧ setParts b.lo b.hi b.names ps bits = .err ()))) := by
  induction ps generalizing bits with
  | nil =>
    refine .inr ⟨nofun, .inl ⟨rfl, bits, rfl, fun v => ?_⟩⟩
    simp [Bounds.Listed]
  | cons part ps ih =>
    cases hrange : b.range part with
    | none =>
      rw [setParts_none hrange, ranges_none hrange, List.all_cons, hrange]
      exact .inr ⟨nofun, .inr ⟨rfl, rfl⟩⟩
    | some r =>
      have hstep := (range_bounds (Bounds.range_some hrange).2).1
      have hfuel : r.last < r.first + (r.last + 1) := by omega
      rw [setParts_some hrange, ranges_some hrange, List.all_cons, hrange, Option.isSome_some,
        Bool.true_and]
      rcases fill_spec hstep hfuel bits with ⟨hpanic, hover⟩ | ⟨bits₁, hok, hfits, hbits₁⟩
      · exact .inl ⟨by rw [hpanic]; rfl, r, List.mem_cons_self, hover⟩
      · have hnot : ¬ r.Over := by
          rintro ⟨v, hv, hover⟩
          have hlt := hfits v hv
          omega
        have hlisted : ∀ v, b.Listed (part :: ps) v ↔ r.Holds v ∨ b.Listed ps v := by
          intro v
          unfold Bounds.Listed
          rw [List.exists_mem_cons_iff, hrange]
          simp only [Option.some.injEq, exists_eq_left']
        rw [hok, Outcome.ok_bind]
        rcases ih bits₁ with ⟨hpanic, r', hr', hover⟩ | ⟨hfits', hrest⟩
        · exact .inl ⟨hpanic, r', .tail _ hr', hover⟩
        · refine .inr ⟨List.forall_mem_cons.mpr ⟨hnot, hfits'⟩, ?_⟩
          rcases hrest with ⟨hall, bits', hok', hbits'⟩ | hrefused
          · refine .inl ⟨hall, bits', hok', fun v => ?_⟩
            rw [hbits', hbits₁, hlisted, or_assoc]
            rfl
          · exact .inr hrefused

/-- What reading does: it runs over in a step of the ranges that are read,
or it gives what is well formed and refuses what is not. -/
def Tried {α : Type} (x : Outcome Unit α) (rs : List Range) (well : Bool) (P : α → Prop) : Prop :=
  (x = .panicked ∧ ∃ r ∈ rs, r.Over)
    ∨ ((∀ r ∈ rs, ¬ r.Over)
      ∧ ((well = true ∧ ∃ a, x = .ok a ∧ P a) ∨ (well = false ∧ x = .err ())))

theorem Tried.bind {α β : Type} {x : Outcome Unit α} {f : α → Outcome Unit β} {rs rs' : List Range}
    {well well' : Bool} {P : α → Prop} {Q : β → Prop} (h : Tried x rs well P)
    (hf : ∀ a, P a → Tried (f a) rs' well' Q) :
    Tried (x >>= f) (rs ++ if well then rs' else []) (well && well') Q := by
  rcases h with ⟨rfl, r, hr, hover⟩ | ⟨hfits, ⟨rfl, a, rfl, ha⟩ | ⟨rfl, rfl⟩⟩
  · exact .inl ⟨rfl, r, List.mem_append_left _ hr, hover⟩
  · rw [Outcome.ok_bind, if_pos rfl, Bool.true_and]
    rcases hf a ha with ⟨hpanic, r, hr, hover⟩ | ⟨hfits', hrest⟩
    · exact .inl ⟨hpanic, r, List.mem_append_right _ hr, hover⟩
    · refine .inr ⟨fun r hr => ?_, hrest⟩
      rcases List.mem_append.mp hr with hr | hr
      · exact hfits r hr
      · exact hfits' r hr
  · rw [if_neg Bool.false_ne_true, List.append_nil]
    exact .inr ⟨hfits, .inr ⟨rfl, rfl⟩⟩

theorem set_tried (b : Bounds) (field : Text) :
    Tried (set field b.lo b.hi b.names) (b.ranges (parts field)) (b.wellFormed field)
      fun bits => ∀ v, bits.testBit v = true ↔ b.Denotes field v := by
  unfold set Bounds.wellFormed
  by_cases hempty : field.takeWhile listChar = []
  · have hparts : parts field = [[]] := by
      unfold parts
      rw [hempty]
      rfl
    rw [if_pos hempty, hparts]
    exact .inr ⟨nofun, .inr ⟨rfl, rfl⟩⟩
  · rw [if_neg hempty]
    have hspec := setParts_spec b (parts field) 0
    simp only [Nat.zero_testBit, Bool.false_eq_true, false_or] at hspec
    exact hspec

theorem Bounds.Denotes.le {b : Bounds} {field : Text} {v : Nat} (h : b.Denotes field v) :
    v ≤ b.hi := by
  obtain ⟨part, -, r, hr, k, -, hle⟩ := h
  exact Nat.le_trans hle (range_bounds (Bounds.range_some hr).2).2

/-! ## Lines of five fields -/

/-- The words of the five fields. -/
structure Line where
  minute : Text
  hour : Text
  dom : Text
  month : Text
  dow : Text

def minuteBounds : Bounds := ⟨0, 59, none⟩
def hourBounds : Bounds := ⟨0, 23, none⟩
def domBounds : Bounds := ⟨1, 31, none⟩
def monthBounds : Bounds := ⟨1, 12, some months⟩
def dowBounds : Bounds := ⟨0, 7, some days⟩

def lineOf (text : Text) : Option Line :=
  match words text with
  | minute :: hour :: dom :: month :: dow :: _ => some ⟨minute, hour, dom, month, dow⟩
  | _ => none

namespace Line

/-- The ranges that are read, field by field up to the first that is
malformed. -/
def ranges (l : Line) : List Range :=
  minuteBounds.ranges (parts l.minute) ++ if minuteBounds.wellFormed l.minute then
    hourBounds.ranges (parts l.hour) ++ if hourBounds.wellFormed l.hour then
      domBounds.ranges (parts l.dom) ++ if domBounds.wellFormed l.dom then
        monthBounds.ranges (parts l.month) ++ if monthBounds.wellFormed l.month then
          dowBounds.ranges (parts l.dow) ++ if dowBounds.wellFormed l.dow then [] else []
        else []
      else []
    else []
  else []

def wellFormed (l : Line) : Bool :=
  minuteBounds.wellFormed l.minute && (hourBounds.wellFormed l.hour && (domBounds.wellFormed l.dom
    && (monthBounds.wellFormed l.month && (dowBounds.wellFormed l.dow && true))))

/-- A day of the week is denoted; Sunday is seven as well. -/
def OnWeekday (l : Line) (w : Nat) : Prop :=
  dowBounds.Denotes l.dow w ∨ (w = 0 ∧ dowBounds.Denotes l.dow 7)

end Line

/-- The bits of five fields are what a line denotes. -/
structure Fields.Reads (f : Fields) (l : Line) : Prop where
  minute : ∀ v, f.minute.testBit v = true ↔ minuteBounds.Denotes l.minute v
  hour : ∀ v, f.hour.testBit v = true ↔ hourBounds.Denotes l.hour v
  dom : ∀ v, f.dom.testBit v = true ↔ domBounds.Denotes l.dom v
  month : ∀ v, f.month.testBit v = true ↔ monthBounds.Denotes l.month v
  dow : ∀ w, f.dow.testBit w = true ↔ w < 7 ∧ l.OnWeekday w
  domStar : f.domStar = startsWithStar l.dom
  dowStar : f.dowStar = startsWithStar l.dow

theorem testBit_narrow {b : Bounds} {field : Text} {bits w : Nat}
    (h : ∀ v, bits.testBit v = true ↔ b.Denotes field v) (hw : b.hi < w) (v : Nat) :
    (bits % 2 ^ w).testBit v = true ↔ b.Denotes field v := by
  rw [Nat.testBit_mod_two_pow, Bool.and_eq_true, decide_eq_true_iff, h]
  exact ⟨fun hv => hv.2, fun hv => ⟨Nat.lt_of_le_of_lt hv.le hw, hv⟩⟩

theorem testBit_week {l : Line} {bits : Nat}
    (h : ∀ v, bits.testBit v = true ↔ dowBounds.Denotes l.dow v) (w : Nat) :
    ((bits ||| bits >>> 7) &&& 0x7f).testBit w = true ↔ w < 7 ∧ l.OnWeekday w := by
  have hmask : (0x7f : Nat).testBit w = decide (w < 7) := Nat.testBit_two_pow_sub_one 7 w
  rw [Nat.testBit_and, Nat.testBit_or, Nat.testBit_shiftRight, hmask, Bool.and_eq_true,
    Bool.or_eq_true, decide_eq_true_iff, h, h, and_comm]
  refine and_congr_right fun hw => or_congr_right ⟨fun hseven => ?_, ?_⟩
  · have hle : 7 + w ≤ 7 := hseven.le
    obtain rfl : w = 0 := by omega
    exact ⟨rfl, hseven⟩
  · rintro ⟨rfl, hseven⟩
    exact hseven

theorem parseFields_tried {text : Text} {l : Line} (h : lineOf text = some l) :
    Tried (parseFields text) l.ranges l.wellFormed fun s => ∃ f, s = .fields f ∧ f.Reads l := by
  unfold lineOf at h
  split at h
  · rename_i minute hour dom month dow rest hwords
    cases h
    unfold parseFields
    rw [hwords]
    refine (set_tried minuteBounds minute).bind fun minuteSet hminute => ?_
    refine (set_tried hourBounds hour).bind fun hourSet hhour => ?_
    refine (set_tried domBounds dom).bind fun domSet hdom => ?_
    refine (set_tried monthBounds month).bind fun monthSet hmonth => ?_
    refine (set_tried dowBounds dow).bind fun dowSet hdow => ?_
    refine .inr ⟨nofun, .inl ⟨rfl, _, rfl, _, rfl, ?_⟩⟩
    exact ⟨hminute, testBit_narrow hhour (by decide), testBit_narrow hdom (by decide),
      testBit_narrow hmonth (by decide), testBit_week hdow, rfl, rfl⟩
  · cases h

theorem parseFields_refused {text : Text} (h : lineOf text = none) :
    parseFields text = .err () := by
  unfold lineOf at h
  split at h
  · cases h
  · rename_i hwords
    unfold parseFields
    split
    · rename_i minute hour dom month dow rest heq
      exact absurd heq (hwords minute hour dom month dow rest)
    · rfl

/-! ## Schedules -/

/-- The five fields a macro stands for. -/
def expansion (name : Text) : Option Text :=
  if name = "@reboot".toList then none
  else if name = "@yearly".toList ∨ name = "@annually".toList then some "0 0 1 1 *".toList
  else if name = "@monthly".toList then some "0 0 1 * *".toList
  else if name = "@weekly".toList then some "0 0 * * 0".toList
  else if name = "@daily".toList ∨ name = "@midnight".toList then some "0 0 * * *".toList
  else if name = "@hourly".toList then some "0 * * * *".toList
  else none

/-- The five fields a text is or stands for. -/
def lineFor (text : Text) : Option Line :=
  let text := trimText text
  if text = [] then none
  else
    match (words text).head?.filter (·.head? = some '@') with
    | some name => (expansion name).bind lineOf
    | none =>
      match interval text with
      | some _ => none
      | none => lineOf text

/-- What is read of a text that is no five fields. -/
def NoFields (x : Outcome Unit Schedule) : Prop :=
  x ≠ .panicked ∧ ∀ f, x ≠ .ok (.fields f)

theorem noFields_err : NoFields (.err ()) := ⟨by simp, by simp⟩

theorem parseFields_spec (text : Text) : (lineOf text = none ∧ NoFields (parseFields text))
      ∨ ∃ l, lineOf text = some l
        ∧ Tried (parseFields text) l.ranges l.wellFormed
          fun s => ∃ f, s = .fields f ∧ f.Reads l := by
  cases h : lineOf text with
  | none => exact .inl ⟨rfl, by rw [parseFields_refused h]; exact noFields_err⟩
  | some l => exact .inr ⟨l, rfl, parseFields_tried h⟩

theorem shorthand_eq (name : Text) : (expansion name = none ∧ NoFields (shorthand name))
      ∨ ∃ text, expansion name = some text ∧ shorthand name = parseFields text := by
  unfold expansion shorthand
  split
  · exact .inl ⟨rfl, by simp [NoFields]⟩
  split
  · exact .inr ⟨_, rfl, rfl⟩
  split
  · exact .inr ⟨_, rfl, rfl⟩
  split
  · exact .inr ⟨_, rfl, rfl⟩
  split
  · exact .inr ⟨_, rfl, rfl⟩
  split
  · exact .inr ⟨_, rfl, rfl⟩
  · exact .inl ⟨rfl, noFields_err⟩

theorem parse_spec (text : Text) : (lineFor text = none ∧ NoFields (parse text))
      ∨ ∃ l, lineFor text = some l
        ∧ Tried (parse text) l.ranges l.wellFormed fun s => ∃ f, s = .fields f ∧ f.Reads l := by
  unfold lineFor parse
  by_cases hempty : trimText text = []
  · rw [if_pos hempty, if_pos hempty]
    exact .inl ⟨rfl, noFields_err⟩
  rw [if_neg hempty, if_neg hempty]
  cases hfirst : (words (trimText text)).head?.filter (·.head? = some '@') with
  | some name =>
    dsimp only
    rcases shorthand_eq name with ⟨hnone, hno⟩ | ⟨fields, hsome, heq⟩
    · exact .inl ⟨by rw [hnone]; rfl, hno⟩
    · rw [hsome, heq]
      exact parseFields_spec fields
  | none =>
    cases hinterval : interval (trimText text) with
    | some seconds => exact .inl ⟨rfl, by simp [NoFields]⟩
    | none => exact parseFields_spec _

/-! ## Minutes -/

/-- The days of a month and of a week that one of the two day fields decides
where it is the only one without a star, as `matches` has it. -/
def starRule (domStar dowStar : Bool) (byDay byWeek : Prop) : Prop :=
  match domStar, dowStar with
  | true, true => True
  | true, false => byWeek
  | false, true => byDay
  | false, false => byDay ∨ byWeek

/-- Vixie's rule: with a star in front of either field both sets hold the
day, and else one of them does. -/
def vixieRule (domStar dowStar : Bool) (byDay byWeek : Prop) : Prop :=
  if domStar || dowStar then byDay ∧ byWeek else byDay ∨ byWeek

/-- A minute since the epoch is one of a line's, by the calendar and a rule
for its day. The epoch was a Thursday. -/
def Line.Names (l : Line) (c : Calendar) (rule : Bool → Bool → Prop → Prop → Prop) (m : Int) :
    Prop :=
  minuteBounds.Denotes l.minute (m % 60).toNat
    ∧ hourBounds.Denotes l.hour (m / 60 % 24).toNat
    ∧ monthBounds.Denotes l.month (c.date (m / 60 / 24)).month
    ∧ rule (startsWithStar l.dom) (startsWithStar l.dow)
      (domBounds.Denotes l.dom (c.date (m / 60 / 24)).day)
      (l.OnWeekday ((m / 60 / 24 + 4) % 7).toNat)

theorem has_iff (bits i : Nat) : Fields.has bits i = true ↔ bits.testBit i = true := by
  unfold Fields.has
  rw [Nat.one_shiftLeft, decide_eq_true_iff]
  constructor
  · intro hne
    refine Decidable.byContradiction fun hbit => hne (Nat.eq_of_testBit_eq fun j => ?_)
    rw [Nat.testBit_and, Nat.testBit_two_pow, Nat.zero_testBit]
    by_cases hj : i = j
    · rw [← hj, eq_false_of_ne_true hbit, Bool.false_and]
    · rw [decide_eq_false hj, Bool.and_false]
  · intro hbit hzero
    have hself : (bits &&& 2 ^ i).testBit i = true := by
      rw [Nat.testBit_and, Nat.testBit_two_pow, hbit, decide_eq_true rfl, Bool.and_self]
    rw [hzero, Nat.zero_testBit] at hself
    cases hself

/-- A minute since the epoch is one the bits of the fields take, by the
calendar and the rule of `matches` for its day. -/
def Fields.Takes (f : Fields) (c : Calendar) (m : Int) : Prop :=
  f.minute.testBit (m % 60).toNat = true
    ∧ f.hour.testBit (m / 60 % 24).toNat = true
    ∧ f.month.testBit (c.date (m / 60 / 24)).month = true
    ∧ starRule f.domStar f.dowStar (f.dom.testBit (c.date (m / 60 / 24)).day = true)
      (f.dow.testBit ((m / 60 / 24 + 4) % 7).toNat = true)

theorem matchesAt_takes (f : Fields) (c : Calendar) (m : Int) :
    f.matchesAt m = true ↔ f.Takes c m := by
  have hminute : ((m % (24 * 60)).toNat % 60) = (m % 60).toNat := by omega
  have hhour : ((m % (24 * 60)).toNat / 60) = (m / 60 % 24).toNat := by omega
  have hday : m / (24 * 60) = m / 60 / 24 := by omega
  unfold Fields.matchesAt Fields.Takes
  dsimp only
  rw [hminute, hhour, hday, civil_eq c]
  simp only [← has_iff]
  cases Fields.has f.minute (m % 60).toNat with
  | false => simp
  | true =>
    cases Fields.has f.hour (m / 60 % 24).toNat with
    | false => simp
    | true =>
      cases Fields.has f.month (c.date (m / 60 / 24)).month with
      | false => simp
      | true =>
        unfold starRule
        cases f.domStar <;> cases f.dowStar <;> simp

/-- A minute matches the fields that were read where the line names it by
the rule of `matches`. -/
theorem matchesAt_iff {f : Fields} {l : Line} (h : f.Reads l) (c : Calendar) (m : Int) :
    f.matchesAt m = true ↔ l.Names c starRule m := by
  have hweek : ((m / 60 / 24 + 4) % 7).toNat < 7 := by omega
  rw [matchesAt_takes f c]
  unfold Fields.Takes Line.Names
  rw [h.minute, h.hour, h.month, h.dom, h.dow, h.domStar, h.dowStar, and_iff_right hweek]

theorem matchesAt_empty {f : Fields} (h : f.empty = true) (m : Int) : f.matchesAt m = false := by
  have hzero : ∀ i, Fields.has 0 i = false := fun i => by simp [Fields.has]
  unfold Fields.empty at h
  simp only [Bool.or_eq_true, decide_eq_true_eq] at h
  unfold Fields.matchesAt
  dsimp only
  rcases h with ((h | h) | h) | h
  · rw [h, hzero]
    rfl
  · rw [h, hzero]
    split <;> rfl
  · rw [h, hzero]
    split
    · rfl
    · split <;> rfl
  · unfold Fields.never at h
    split
    · rfl
    split
    · rfl
    split
    · rfl
    cases hdom : f.domStar <;> cases hdow : f.dowStar <;> rw [hdom, hdow] at h <;>
      simp only [Bool.and_eq_true, decide_eq_true_eq, Bool.false_eq_true] at h
    · simp only [h.1, h.2, hzero, Bool.or_self]
    · simp only [h, hzero]
    · simp only [h, hzero]

end Cron

end Zou
