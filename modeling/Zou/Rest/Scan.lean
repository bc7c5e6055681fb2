import Zou.Lib.Scanner

/-!
# The shared pieces of the query grammars

What the filter, select and order grammars of the rest side share: bare and
quoted names, json arrow paths, and the escaping that renders them back. A
text is the list of its characters; every delimiter of the grammars is an
ascii byte, so reading it by the byte and by the character is the same. A
cursor is what is left to read. A parse that fails is `none`: where and why
it failed is left out.
-/

namespace Zou.Rest

open Scanner

abbrev Text := List Char

abbrev Cur := Scanner Char

inductive JsonKey where
  | name (n : Text)
  | index (i : Int64)
  deriving DecidableEq

/-- One json arrow step hung off a column. -/
structure JsonStep where
  /-- True for `->>`, the text extraction arrow. -/
  text : Bool
  key : JsonKey
  deriving DecidableEq

def arrow : Text := "->".toList

theorem arrow_eq : arrow = ['-', '>'] := by decide

/-- A space or a tab, what `trim_matches` and `skip_spaces` take off. -/
def blank (c : Char) : Bool := c = ' ' || c = '\t'

def trim (s : Text) : Text := ((s.dropWhile blank).reverse.dropWhile blank).reverse

/-- Step over spaces and tabs. -/
def skipSpaces : Cur Unit := do
  let _ ← readUntil fun r => !r.head?.any blank
  return ()

/-- A break, or the `->` that a bare name stops at as well. -/
def nameStop (brk : Char → Bool) (s : Text) : Bool := s.head?.any brk || decide (arrow <+: s)

/-- Scan a bare name up to the next break. -/
def scanName (brk : Char → Bool) : Cur Text := readUntil (nameStop brk)

/-- What is left of a quoted name behind the quote that opens it: up to the
quote that closes it, less the backslashes that escape a character. -/
def unquote : Text → Option (Text × Text)
  | [] => none
  | '"' :: s => some ([], s)
  | ['\\'] => none
  | '\\' :: c :: s => (unquote s).map fun x => (c :: x.1, x.2)
  | c :: s => (unquote s).map fun x => (c :: x.1, x.2)

theorem unquote_suffix {s a r : Text} (h : unquote s = some (a, r)) : r <:+ s := by
  induction s using unquote.induct generalizing a with
  | case1 => cases h
  | case2 s =>
    cases h
    exact List.suffix_cons ..
  | case3 => cases h
  | case4 c s ih =>
    obtain ⟨x, hx, heq⟩ := Option.map_eq_some_iff.mp h
    cases heq
    exact (ih hx).trans ((List.suffix_cons ..).trans (List.suffix_cons ..))
  | case5 c s h₁ h₂ h₃ ih =>
    rw [unquote] at h
    · obtain ⟨x, hx, heq⟩ := Option.map_eq_some_iff.mp h
      cases heq
      exact (ih hx).trans (List.suffix_cons ..)
    all_goals assumption

def scanQuoted : Cur Text := do
  expect '"'
  ⟨unquote, unquote_suffix⟩

/-! ## Json paths -/

/-- Characters that end a piece of a json path key. -/
def jsonKeyBreak (c : Char) : Bool := c ∈ "():.,>".toList

/-- What has to follow the digits of an index. -/
def indexEnds (s : Text) : Bool :=
  s = [] || arrow <+: s || "::".toList <+: s || s.head? = some '.' || s.head? = some ','

/-- `str::parse::<i64>` on a sign and digits. -/
def parseI64 (negative : Bool) (digits : Text) : Option Int64 :=
  let n := Nat.ofDigitChars 10 digits 0
  let i : Int := if negative then -n else n
  if -2 ^ 63 ≤ i ∧ i < 2 ^ 63 then some (Int64.ofInt i) else none

/-- The index a step reads as a number, `none` when the step is a key. -/
def jsonIndex : Cur (Option Int64) := do
  let s ← rest
  let negative := s.head? = some '-'
  let sign := if negative then 1 else 0
  let digits := (s.drop sign).takeWhile Char.isDigit
  if digits = [] then
    return none
  if !indexEnds (s.drop (sign + digits.length)) then
    return none
  match parseI64 negative digits with
  | none => return none
  | some n =>
    advance (sign + digits.length)
    return some n

def pieceStop (s : Text) : Bool := s.head?.any fun c => jsonKeyBreak c || c = '-'

/-- A turn of reading the pieces of a bare key, which dashes join. -/
def keyPiecesTurn (more : Cur (List Text)) : Cur (List Text) := do
  let piece ← readUntil pieceStop
  if piece = [] then
    fail
  let s ← rest
  if s.head? = some '-' ∧ ¬ arrow <+: s then
    advance 1
    return trim piece :: (← more)
  return [trim piece]

def keyPieces : Cur (List Text) := fix keyPiecesTurn

def parseJsonKey : Cur JsonKey := do
  match ← jsonIndex with
  | some n => return .index n
  | none =>
    if (← peek) = some '-' then
      fail
    if (← peek) = some '"' then
      return .name (← scanQuoted)
    return .name (['-'].intercalate (← keyPieces))

def jsonPathTurn (more : Cur (List JsonStep)) : Cur (List JsonStep) := do
  if ← eatStr arrow then
    let text ← eat '>'
    let key ← parseJsonKey
    return ⟨text, key⟩ :: (← more)
  return []

/-- The arrow chain after a column name, empty when there is none. -/
def parseJsonPath : Cur (List JsonStep) := fix jsonPathTurn

/-! ## Rendering -/

def escape (c : Char) : Text := if c = '"' ∨ c = '\\' then ['\\', c] else [c]

def writeEscaped (s : Text) : Text := '"' :: (s.flatMap escape ++ ['"'])

/-- True when a json path key cannot be written bare. -/
def keyNeedsQuotes (s : Text) : Bool :=
  (s.any fun c => jsonKeyBreak c || c = '"' || c = '\\')
    || ((s.splitOn '-').any fun p => p = [] || trim p ≠ p)
    || s.all Char.isDigit

def writeI64 (i : Int64) : Text :=
  if i.toInt < 0 then '-' :: Nat.toDigits 10 i.toInt.natAbs else Nat.toDigits 10 i.toInt.natAbs

def writeKey : JsonKey → Text
  | .name n => if keyNeedsQuotes n then writeEscaped n else n
  | .index i => writeI64 i

def writeStep (step : JsonStep) : Text :=
  arrow ++ (if step.text then ['>'] else []) ++ writeKey step.key

def writePath (path : List JsonStep) : Text := path.flatMap writeStep

end Zou.Rest
