import Zou.GcLock
import Zou.Lib.Calendar
import Zou.Lib.Outcome
import Zou.Lib.Search

/-!
# The schedule of a job

A schedule is read the way vixie cron reads one: a macro, an interval of
seconds, or five fields, each a list of ranges with a step that becomes a
set of bits. `next_after` and `last_at_or_before` walk the minutes and ask
each whether the fields match it, for a bounded number of minutes. `when`
says which occurrence a job is due for.

An error is a schedule that is refused. A sum that does not fit its type
panics, as it does in a build that checks.
-/

namespace Zou

namespace Cron

open GcLock (isWhitespace trimText)

abbrev Text := List Char

/-! ## One field -/

def months : List Text :=
  ["jan".toList, "feb".toList, "mar".toList, "apr".toList, "may".toList, "jun".toList,
    "jul".toList, "aug".toList, "sep".toList, "oct".toList, "nov".toList, "dec".toList]

def days : List Text :=
  ["sun".toList, "mon".toList, "tue".toList, "wed".toList, "thu".toList, "fri".toList,
    "sat".toList]

/-- `str::parse::<u32>`. -/
def parseU32 (s : Text) : Option Nat := (parseU64 s).filter (· < 2 ^ 32)

/-- `eq_ignore_ascii_case`. -/
def sameIgnoringCase (a b : Text) : Bool := a.map Char.toLower = b.map Char.toLower

/-- One end of a range: a number in the field's own range, or a name where
the field takes names. -/
def value (text : Text) (lo hi : Nat) (names : Option (List Text)) : Option Nat :=
  let found := match parseU32 text with
    | some n => some n
    | none => names.bind fun names =>
      (names.findIdx? (sameIgnoringCase · text)).map (· + lo)
  found.filter fun n => lo ≤ n && n ≤ hi

/-- The values a part of a list goes through. -/
structure Range where
  first : Nat
  last : Nat
  step : Nat

/-- What is in front of the slash of a part, and the step behind it. -/
def bodyStep (part : Text) : Option (Text × Nat) :=
  match splitOnce '/' part with
  | some (body, step) => (parseU32 step).bind fun step =>
    if step = 0 then none else some (body, step)
  | none => some (part, 1)

/-- A part of a list: a star, or a value or two with a dash; a single value
takes no step. -/
def range (lo hi : Nat) (names : Option (List Text)) (part : Text) : Option Range :=
  (bodyStep part).bind fun (body, step) =>
    if body = ['*'] then some ⟨lo, hi, step⟩
    else
      match body.splitOn '-' with
      | [first] => (value first lo hi names).bind fun first =>
        if step > 1 then none else some ⟨first, first, step⟩
      | [first, second] => (value first lo hi names).bind fun first =>
        (value second lo hi names).map fun second => ⟨first, second, step⟩
      | _ => none

/-- The bits of a range from `i` on, put to those that are there. The
counter is of 32 bits. -/
def fill (r : Range) : Nat → Nat → Nat → Outcome Unit Nat
  | 0, _, bits => pure bits
  | fuel + 1, i, bits =>
    if i ≤ r.last then
      if i + r.step < 2 ^ 32 then fill r fuel (i + r.step) (bits ||| 1 <<< i) else .panicked
    else pure bits

/-- The parts of a list, one after the other. -/
def setParts (lo hi : Nat) (names : Option (List Text)) : List Text → Nat → Outcome Unit Nat
  | [], bits => pure bits
  | part :: parts, bits =>
    if part = [] then .err ()
    else
      match range lo hi names part with
      | none => .err ()
      | some r => do
        let bits ← fill r (r.last + 1) r.first bits
        setParts lo hi names parts bits

/-- What a list is made of; anything else ends the field. -/
def listChar (c : Char) : Bool := c.isAlphanum || c ∈ [',', '-', '/', '*']

/-- One field as a bit set. -/
def set (field : Text) (lo hi : Nat) (names : Option (List Text)) : Outcome Unit Nat :=
  let field := field.takeWhile listChar
  if field = [] then .err () else setParts lo hi names (field.splitOn ',') 0

/-! ## Schedules -/

/-- The five fields as bit sets, and which of the two day fields start with
a star. -/
structure Fields where
  minute : Nat
  hour : Nat
  dom : Nat
  month : Nat
  dow : Nat
  domStar : Bool
  dowStar : Bool
  deriving DecidableEq

inductive Schedule where
  | reboot
  | every (seconds : Nat)
  | fields (f : Fields)
  deriving DecidableEq

/-- `split_whitespace`. -/
def words (text : Text) : List Text := (text.splitOnP isWhitespace).filter (· ≠ [])

/-- The interval form: a whole number of seconds, one to fifty nine. -/
def interval (text : Text) : Option Nat :=
  match text.dropWhile (!isWhitespace ·) with
  | [] => none
  | _ :: unit =>
    let unit := trimText unit
    if sameIgnoringCase unit "second".toList || sameIgnoringCase unit "seconds".toList then
      (parseU32 (text.takeWhile (!isWhitespace ·))).filter fun n => 1 ≤ n && n ≤ 59
    else none

def startsWithStar (field : Text) : Bool := field.head? = some '*'

/-- The five fields of a schedule; what is behind them is not looked at. -/
def parseFields (text : Text) : Outcome Unit Schedule :=
  match words text with
  | minute :: hour :: dom :: month :: dow :: _ => do
    let minuteSet ← set minute 0 59 none
    let hourSet ← set hour 0 23 none
    let domSet ← set dom 1 31 none
    let monthSet ← set month 1 12 (some months)
    let dowSet ← set dow 0 7 (some days)
    pure (.fields ⟨minuteSet, hourSet % 2 ^ 32, domSet % 2 ^ 32, monthSet % 2 ^ 16,
      (dowSet ||| dowSet >>> 7) &&& 0x7f, startsWithStar dom, startsWithStar dow⟩)
  | _ => .err ()

/-- What a macro stands for. -/
def shorthand (name : Text) : Outcome Unit Schedule :=
  if name = "@reboot".toList then pure .reboot
  else if name = "@yearly".toList ∨ name = "@annually".toList then
    parseFields "0 0 1 1 *".toList
  else if name = "@monthly".toList then parseFields "0 0 1 * *".toList
  else if name = "@weekly".toList then parseFields "0 0 * * 0".toList
  else if name = "@daily".toList ∨ name = "@midnight".toList then
    parseFields "0 0 * * *".toList
  else if name = "@hourly".toList then parseFields "0 * * * *".toList
  else .err ()

def parse (text : Text) : Outcome Unit Schedule :=
  let text := trimText text
  if text = [] then .err ()
  else
    match (words text).head?.filter (·.head? = some '@') with
    | some name => shorthand name
    | none =>
      match interval text with
      | some seconds => pure (.every seconds)
      | none => parseFields text

/-! ## The calendar -/

/-- Days since the epoch to a calendar date. -/
def civil (days : Int) : Date :=
  let z := days + 719468
  let era := z / 146097
  let doe := (z % 146097).toNat
  let yoe := (doe - doe / 1460 + doe / 36524 - doe / 146096) / 365
  let year := yoe + era * 400
  let doy := doe - (365 * yoe + yoe / 4 - yoe / 100)
  let mp := (5 * doy + 2) / 153
  let day := doy - (153 * mp + 2) / 5 + 1
  let month := if mp < 10 then mp + 3 else mp - 9
  ⟨if month ≤ 2 then year + 1 else year, month, day⟩

namespace Fields

/-- Whether the two day fields between them name no day at all. -/
def never (f : Fields) : Bool :=
  match f.domStar, f.dowStar with
  | true, true => false
  | true, false => f.dow = 0
  | false, true => f.dom = 0
  | false, false => f.dom = 0 && f.dow = 0

def has (bits i : Nat) : Bool := bits &&& 1 <<< i ≠ 0

/-- Whether a minute since the epoch is one of the schedule's. -/
def matchesAt (f : Fields) (minuteNumber : Int) : Bool :=
  let days := minuteNumber / (24 * 60)
  let inDay := (minuteNumber % (24 * 60)).toNat
  let minute := inDay % 60
  let hour := inDay / 60
  if !has f.minute minute then false
  else if !has f.hour hour then false
  else
    let date := civil days
    if !has f.month date.month then false
    else
      -- 1970-01-01 was a Thursday
      let weekday := ((days + 4) % 7).toNat
      let byDay := has f.dom date.day
      let byWeek := has f.dow weekday
      match f.domStar, f.dowStar with
      | true, true => true
      | true, false => byWeek
      | false, true => byDay
      | false, false => byDay || byWeek

end Fields

/-! ## Occurrences -/

/-- A number in 64 bits. -/
def i64 (n : Int) : Outcome Unit Int := if -2 ^ 63 ≤ n ∧ n < 2 ^ 63 then pure n else .panicked

/-- How many minutes are looked at. -/
def window : Nat := 4 * 366 * 24 * 60

/-- The second a minute that was found starts with. -/
def secondOf : Option Int → Outcome Unit (Option Int)
  | none => pure none
  | some minute => do
    let second ← i64 (minute * 60)
    pure (some second)

namespace Fields

/-- Whether a field has nothing in it. -/
def empty (f : Fields) : Bool := f.minute = 0 || f.hour = 0 || f.month = 0 || f.never

def nextAfter (f : Fields) (unix : Int) : Outcome Unit (Option Int) :=
  if f.empty then pure none else secondOf (Search.up f.matchesAt window (unix / 60 + 1))

def lastAtOrBefore (f : Fields) (unix : Int) : Outcome Unit (Option Int) :=
  if f.empty then pure none else secondOf (Search.down f.matchesAt window (unix / 60))

end Fields

namespace Schedule

/-- The first second strictly after `unix` that this schedule names. -/
def nextAfter (s : Schedule) (unix : Int) : Outcome Unit (Option Int) :=
  match s with
  | .reboot => pure none
  | .every seconds => do
    let step := max seconds 1
    let start ← i64 (unix - unix % step)
    let second ← i64 (start + step)
    pure (some second)
  | .fields f => f.nextAfter unix

/-- The last second at or before `unix` that this schedule names. -/
def lastAtOrBefore (s : Schedule) (unix : Int) : Outcome Unit (Option Int) :=
  match s with
  | .reboot => pure none
  | .every seconds => do
    let step := max seconds 1
    let second ← i64 (unix - unix % step)
    pure (some second)
  | .fields f => f.lastAtOrBefore unix

end Schedule

/-- The occurrence a job is due for right now, or nothing; `last` is the one
it was last fired for. -/
def when (s : Schedule) (last now : Int) (waking : Bool) : Outcome Unit (Option Int) :=
  match s with
  | .reboot => pure (if waking then some now else none)
  | s => do
    let next ← s.nextAfter last
    match next with
    | none => pure none
    | some next =>
      if next > now then pure none
      else do
        let before ← s.lastAtOrBefore now
        pure (some (max (before.getD next) next))

end Cron

end Zou
