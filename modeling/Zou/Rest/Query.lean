import Zou.Rest.Filter

/-!
# One query string

`parseQuery` reads the pairs of a query string into what the planner takes:
the reserved words, the paging three of them behind a route, and a filter
for every other key. Limits and offsets are held back until all of it has
been read and then become the windows they describe. The grammars of
`select`, of a column list and of `order` are parameters, as is what
becomes of bytes that are no text.
-/

namespace Zou.Rest

/-! ## Decoding and encoding -/

def utf8 (s : Text) : List UInt8 := s.flatMap String.utf8EncodeChar

def hexVal (b : UInt8) : Option UInt8 :=
  if 48 ≤ b ∧ b ≤ 57 then some (b - 48)
  else if 97 ≤ b ∧ b ≤ 102 then some (b - 97 + 10)
  else if 65 ≤ b ∧ b ≤ 70 then some (b - 65 + 10)
  else none

/-- Percent decoding, and the plus that is a space in a form. A percent
sign that two digits do not follow is itself. -/
def decodeBytes : List UInt8 → List UInt8
  | [] => []
  | b :: hi :: lo :: rest =>
    if b = 43 then 32 :: decodeBytes (hi :: lo :: rest)
    else if b = 37 then
      match hexVal hi, hexVal lo with
      | some hi, some lo => (hi <<< 4 ||| lo) :: decodeBytes rest
      | _, _ => 37 :: decodeBytes (hi :: lo :: rest)
    else b :: decodeBytes (hi :: lo :: rest)
  | b :: bytes => (if b = 43 then 32 else b) :: decodeBytes bytes

/-- `String::from_utf8_lossy`: `repair` is what it makes of bytes that are
no text. -/
def lossy (repair : List UInt8 → Text) (bytes : List UInt8) : Text :=
  match ByteArray.utf8Decode? ⟨bytes.toArray⟩ with
  | some text => text.toList
  | none => repair bytes

def decode (repair : List UInt8 → Text) (s : Text) : Text := lossy repair (decodeBytes (utf8 s))

def hexDigit (n : UInt8) : Char := Char.ofNat (if n < 10 then 48 + n.toNat else 55 + n.toNat)

/-- The url standard's unreserved bytes. -/
def unreserved (b : UInt8) : Bool :=
  (65 ≤ b && b ≤ 90) || (97 ≤ b && b ≤ 122) || (48 ≤ b && b ≤ 57) || b = 45 || b = 95 || b = 46
    || b = 126

/-- Percent encoding, for the query string that is written rather than the
one that was sent. -/
def escapeQuery (s : Text) : Text :=
  (utf8 s).flatMap fun b =>
    if unreserved b then [Char.ofNat b.toNat] else ['%', hexDigit (b / 16), hexDigit (b % 16)]

/-! ## Paging parameters -/

/-- A decimal with an optional minus that fits 64 bits. -/
def signed (value : Text) : Option Int :=
  let digits := if value.head? = some '-' then value.tail else value
  if digits = [] ∨ ¬ digits.all Char.isDigit then none
  else
    let n := Nat.ofDigitChars 10 digits 0
    let i : Int := if value.head? = some '-' then -n else n
    if -2 ^ 63 ≤ i ∧ i < 2 ^ 63 then some i else none

/-- The segments a key addresses before its last word. -/
abbrev Route := List Text

/-- The route an `orders.items.order` style key addresses. -/
def routeOf (front : Text) : Route := if front = [] then [] else front.splitOn '.'

def i64Max : Int := 2 ^ 63 - 1

def i64Min : Int := -2 ^ 63

/-- `saturating_add` of two `i64`. -/
def satAdd (a b : Int) : Int := max i64Min (min i64Max (a + b))

/-- The offset named first on a route, in the route's own spelling. -/
def offsetOn (offsets : List (Route × Int)) (route : Route) : Int :=
  ((offsets.find? (·.1 = route)).map Prod.snd).getD 0

/-- The rows of the window a limit and an offset describe that are not in
front of the first row. -/
def windowRows (offset limit : Int) : Int :=
  let first := max offset 0
  let last := satAdd (satAdd offset limit) (-1)
  satAdd (satAdd last (-first)) 1

/-- A window that ends before it starts is refused. -/
def windowLimits (offsets : List (Route × Int)) : List (Route × Int) → Option (List (Route × Nat))
  | [] => some []
  | (route, limit) :: limits =>
    let rows := windowRows (offsetOn offsets route) limit
    if rows < 0 then none
    else (windowLimits offsets limits).map ((route, rows.toNat) :: ·)

def windowOffsets (offsets : List (Route × Int)) : List (Route × Nat) :=
  offsets.filterMap fun o => if 0 ≤ o.2 then some (o.1, o.2.toNat) else none

/-! ## The pairs -/

/-- What the pairs have said. -/
structure Given (Item Term : Type) where
  select : Option (List Item)
  onConflict : Option (List Text)
  columns : Option (List Text)
  order : List (Route × List Term)
  limits : List (Route × Int)
  offsets : List (Route × Int)
  filters : List (Route × Node)

/-- The grammars of the reserved words. -/
structure Grammars (Item Term : Type) where
  select : Text → Option (List Item)
  columns : Text → Option (List Text)
  order : Text → Option (List Term)

namespace Given

variable {Item Term : Type}

def nothing : Given Item Term := ⟨none, none, none, [], [], [], []⟩

def rsplit (key : Text) : Text × Text :=
  let word := (key.reverse.takeWhile (· ≠ '.')).reverse
  if '.' ∈ key then (key.take (key.length - word.length - 1), word) else ([], key)

/-- A filter pair. -/
def takeFilter (s : Given Item Term) (key value : Text) : Option (Given Item Term) :=
  (parsePair key value).map fun parsed =>
    match parsed with
    | .filter cond => { s with filters := s.filters ++ [([], .cond cond)] }
    | .logic embed op negated kids =>
      { s with filters := s.filters ++ [(embed, .group op negated kids)] }

def takePair (g : Grammars Item Term) (s : Given Item Term) (key value : Text) :
    Option (Given Item Term) :=
  if key = "apikey".toList then some s
  else
    let front := (rsplit key).1
    let word := (rsplit key).2
    if word = "select".toList ∧ front = [] then
      (g.select value).map fun items => { s with select := some items }
    else if word = "on_conflict".toList ∧ front = [] then
      (g.columns value).map fun names => { s with onConflict := some names }
    else if word = "columns".toList ∧ front = [] then
      (g.columns value).map fun names => { s with columns := some names }
    else if word = "order".toList then
      (g.order value).map fun terms => { s with order := s.order ++ [(routeOf front, terms)] }
    else if word = "limit".toList then
      (signed value).map fun n => { s with limits := s.limits ++ [(routeOf front, n)] }
    else if word = "offset".toList then
      (signed value).map fun n => { s with offsets := s.offsets ++ [(routeOf front, n)] }
    else s.takeFilter key value

end Given

/-- The sides of a pair, at its first equals sign. -/
def splitPair (pair : Text) : Text × Text :=
  (pair.takeWhile (· ≠ '='), (pair.dropWhile (· ≠ '=')).tail)

/-- The pairs of a query string, decoded. -/
def pairsOf (repair : List UInt8 → Text) (raw : Text) : List (Text × Text) :=
  ((raw.splitOn '&').filter (· ≠ [])).map fun pair =>
    (decode repair (splitPair pair).1, decode repair (splitPair pair).2)

/-- What a query string says, `none` where a pair does not parse. -/
def given {Item Term : Type} (repair : List UInt8 → Text) (g : Grammars Item Term) (raw : Text) :
    Option (Given Item Term) :=
  (pairsOf repair raw).foldlM (fun s pair => s.takePair g pair.1 pair.2) .nothing

inductive QueryError where
  | grammar
  | negativeLimit

/-- The planner's input. -/
structure Query (Item Term : Type) where
  select : List Item
  onConflict : Option (List Text)
  columns : Option (List Text)
  filters : List (Route × Node)
  order : List (Route × List Term)
  limit : List (Route × Nat)
  offset : List (Route × Nat)

/-- The windows of the limits and offsets. -/
def Given.window {Item Term : Type} (s : Given Item Term) (all : List Item) :
    Except QueryError (Query Item Term) :=
  match windowLimits s.offsets s.limits with
  | none => .error .negativeLimit
  | some limit =>
    .ok ⟨s.select.getD all, s.onConflict, s.columns, s.filters, s.order, limit,
      windowOffsets s.offsets⟩

/-- One query string into the planner's input; `all` is what `*` selects. -/
def parseQuery {Item Term : Type} (repair : List UInt8 → Text) (g : Grammars Item Term)
    (all : List Item) (raw : Text) : Except QueryError (Query Item Term) :=
  match given repair g raw with
  | none => .error .grammar
  | some s => s.window all

end Zou.Rest
