import Zou.Lib.Scanner
import Zou.Realtime.Json
import Zou.Realtime.Pgoutput

/-!
# What a subscriber is told a change was

The `data` half of a `postgres_changes` payload, per subscriber: which
columns and which rows are in it is `Seen`, and how a cell is written is the
type's shape. The json reader is a parameter. Texts are measured and array
literals are read by the byte.

`value` and `array` call each other on the elements of an array literal,
which are shorter than the literal. The recursion is on that length.
-/

namespace Zou.Realtime

open Scanner

def MOST : Nat := 1024 * 1024

/-- How much of a value survives a change that was too large. -/
def KEPT : Nat := 64

def TOO_LARGE : String := "Error 413: Payload Too Large"

def NO_KEY : String := "Error 400: Bad Request, no primary key"

def UNAUTHORIZED : String := "Error 401: Unauthorized"

/-- What one subscriber may see of one change. -/
structure Seen where
  row : Bool
  /-- Which of the relation's columns the subscriber may select. -/
  columns : List Bool
  /-- Which of them are the primary key, as the catalog has it. -/
  keys : List Bool
  /-- Whether the old record is cut down to the key. -/
  keysOnly : Bool
  /-- What to say instead of a record. -/
  error : Option String

inductive Shape where
  | number
  | bool
  | json
  | bytes
  | stamp
  | array (elem : UInt32)
  | text
  deriving DecidableEq

structure Kind where
  name : String
  shape : Shape
  /-- What separates two elements of an array of this. -/
  delim : UInt8

/-- The types looked up so far. -/
structure Types where
  kinds : UInt32 → Option Kind

namespace Types

def get (types : Types) (oid : UInt32) : Option Kind := types.kinds oid

def name (types : Types) (oid : UInt32) : String :=
  match types.kinds oid with
  | some kind => kind.name
  | none => s!"oid_{oid.toNat}"

def shape (types : Types) (oid : UInt32) : Shape :=
  match types.kinds oid with
  | some kind => kind.shape
  | none => .text

end Types

/-- The json reader, for a number and for any value. -/
structure Serde where
  number : String → Option Number
  value : String → Option Value

/-! ## Values -/

/-- The bytes of a text. -/
def asBytes (s : String) : List UInt8 := s.toByteArray.data.toList

def fromUtf8 (bs : List UInt8) : Option String := String.fromUTF8? ⟨bs.toArray⟩

def hexDigit (n : Nat) : Char := "0123456789abcdef".toList.getD n '0'

def hex (bs : List UInt8) : String :=
  String.ofList (bs.flatMap fun b => [hexDigit (b.toNat / 16), hexDigit (b.toNat % 16)])

/-- A timestamp as json writes it rather than as postgres prints it. -/
def iso (text : String) : String :=
  let cs := text.toList
  match cs.dropWhile (· ≠ ' ') with
  | [] => text
  | _ :: rest =>
    -- What stands behind the last sign is the zone.
    let zone := (rest.reverse.takeWhile fun c => c ≠ '+' ∧ c ≠ '-').reverse
    let signed := rest.any fun c => c = '+' ∨ c = '-'
    let minutes := if signed && zone.length = 2 && zone.all Char.isDigit then ":00" else ""
    String.ofList (cs.takeWhile (· ≠ ' ')) ++ "T" ++ String.ofList rest ++ minutes

def BRACE : UInt8 := 123
def UNBRACE : UInt8 := 125
def QUOTE : UInt8 := 34
def BACKSLASH : UInt8 := 92

/-- What a run of a quoted element stops at. -/
def quoteStop (r : List UInt8) : Bool := r.head?.any fun b => b = BACKSLASH ∨ b = QUOTE

/-- A turn of reading a quoted element behind the quote that opens it. -/
def quotedTurn (more : Scanner UInt8 String) : Scanner UInt8 String := do
  match ← peek with
  | none => fail
  | some b =>
    if b = BACKSLASH then
      advance 1
      match ← peek with
      | none => fail
      | some c =>
        advance 1
        return String.singleton (Char.ofNat c.toNat) ++ (← more)
    else if b = QUOTE then
      advance 1
      return ""
    else
      let run ← readUntil quoteStop
      match fromUtf8 run with
      | none => fail
      | some s => return s ++ (← more)

/-- One element of an array literal, and whether it was quoted. -/
def element (delim : UInt8) : Scanner UInt8 (String × Bool) := do
  if (← peek) = some QUOTE then
    advance 1
    return (← fix quotedTurn, true)
  let run ← readUntil fun r => r.head?.any fun b => b = delim ∨ b = UNBRACE
  match fromUtf8 run with
  | none => fail
  | some s => return (s, false)

/-- An array literal, where `more` reads the elements behind its brace. -/
def itemsWith (more : Scanner UInt8 (List Value)) : Scanner UInt8 Value := do
  expect BRACE
  if ← eat UNBRACE then
    return .array []
  return .array (← more)

def itemOf (conv : String → Value) (e : String × Bool) : Value :=
  if !e.2 && e.1.toLower = "null" then .null else conv e.1

def item (delim : UInt8) (conv : String → Value) (more : Scanner UInt8 (List Value)) :
    Scanner UInt8 Value := do
  if (← peek) = some BRACE then
    itemsWith more
  else
    return itemOf conv (← element delim)

/-- A turn of reading the elements up to the brace that closes them. -/
def itemsTurn (delim : UInt8) (conv : String → Value) (more : Scanner UInt8 (List Value)) :
    Scanner UInt8 (List Value) := do
  let one ← item delim conv more
  match ← peek with
  | none => fail
  | some b =>
    if b = delim then
      advance 1
      return one :: (← more)
    else if b = UNBRACE then
      advance 1
      return [one]
    else
      fail

def items (delim : UInt8) (conv : String → Value) : Scanner UInt8 Value :=
  itemsWith (fix (itemsTurn delim conv))

/-- The literal behind a prefix that says where the dimensions start. -/
def arrayBody (bs : List UInt8) : Option (List UInt8) :=
  if bs.head? = some 91 then
    match bs.dropWhile (· ≠ 61) with
    | [] => none
    | _ :: body => some body
  else some bs

/-- A postgres array literal as a json array, the text itself where it does
not parse. -/
def array (types : Types) (conv : String → Value) (text : String) (elem : UInt32) : Value :=
  let delim := ((types.get elem).map Kind.delim).getD 44
  match arrayBody (asBytes text) with
  | none => .string text
  | some body =>
    match (items delim conv).run body with
    | some (v, []) => v
    | _ => .string text

/-- One value, as `to_jsonb` of that type would have written it. -/
def value (serde : Serde) (types : Types) (text : String) (shape : Shape) : Value :=
  match shape with
  | .number =>
    match serde.number text with
    | some number => .number number
    | none => .string text
  | .bool => .bool (text = "t" ∨ text = "true")
  | .json => (serde.value text).getD (.string text)
  | .bytes => .string (String.ofList (if "\\x".toList <+: text.toList then
      text.toList.drop 2 else text.toList))
  | .stamp => .string (iso text)
  | .array elem =>
    array types (fun s =>
      -- An element is never as long as the literal.
      if _h : s.utf8ByteSize < text.utf8ByteSize then
        value serde types s (types.shape elem)
      else .string s) text elem
  | .text => .string text
  termination_by text.utf8ByteSize

/-- `{n:0w}`. -/
def padded (w : Nat) (n : Int) : String :=
  let digits := Nat.toDigits 10 n.natAbs
  let sign := if n < 0 then ['-'] else []
  String.ofList (sign ++ List.replicate (w - sign.length - digits.length) '0' ++ digits)

/-- A day since the epoch as its year, month and day. -/
def civil (days : Int) : Int × Int × Int :=
  let z := days + 719468
  let era := z / 146097
  let doe := z % 146097
  let yoe := (doe - doe / 1460 + doe / 36524 - doe / 146096) / 365
  let year := yoe + era * 400
  let doy := doe - (365 * yoe + yoe / 4 - yoe / 100)
  let mp := (5 * doy + 2) / 153
  let day := doy - (153 * mp + 2) / 5 + 1
  let month := if mp < 10 then mp + 3 else mp - 9
  (if month ≤ 2 then year + 1 else year, month, day)

def stamp (micros : Int) : String :=
  let millis := micros / 1000
  let secs := millis / 1000
  let ms := millis % 1000
  let time := secs % 86400
  let (year, month, day) := civil (secs / 86400)
  padded 4 year ++ "-" ++ padded 2 month ++ "-" ++ padded 2 day ++ "T"
    ++ padded 2 (time / 3600) ++ ":" ++ padded 2 (time / 60 % 60) ++ ":" ++ padded 2 (time % 60)
    ++ "." ++ padded 3 ms ++ "Z"

/-! ## The payload -/

/-- What the change would cost to send, near enough. -/
def weight (change : Change) : Nat :=
  ((change.record ++ change.old.getD []).map fun
    | .text text => text.utf8ByteSize
    | .bytes raw => raw.length * 2
    | _ => 0).sum

/-- The cell of a row at a column: an unchanged one is read from the row
before it, and one that nothing has is left out. -/
def rowCell (cells : List Cell) (fallback : Option (List Cell)) (at' : Nat) : Option Cell :=
  match cells[at']? with
  | some .unchanged => (fallback.bind fun old => old[at']?).filter (· ≠ .unchanged)
  | cell => cell

def cellValue (serde : Serde) (types : Types) (column : Column) (large : Bool) : Cell → Option Value
  | .null => some .null
  | .unchanged => none
  | .text text =>
    if large && KEPT < text.utf8ByteSize then none
    else some (value serde types text (types.shape column.typeOid))
  | .bytes bytes =>
    if large && KEPT < bytes.length then none else some (.string (hex bytes))

/-- What a row says about a column, if anything. -/
def rowValue (serde : Serde) (cells : List Cell) (fallback : Option (List Cell))
    (keep : Option (List Bool)) (types : Types) (seen : Seen) (large : Bool)
    (column : Column) (at' : Nat) : Option Value :=
  if keep.any fun keep => !keep.getD at' false then none
  else if !seen.columns.getD at' false then none
  else (rowCell cells fallback at').bind (cellValue serde types column large)

/-- A row of cells as the object a client reads. -/
def row (serde : Serde) (relation : Relation) (cells : List Cell) (fallback : Option (List Cell))
    (keep : Option (List Bool)) (types : Types) (seen : Seen) (large : Bool) : Value :=
  .object (relation.columns.zipIdx.foldl (fun out x =>
    match rowValue serde cells fallback keep types seen large x.1 x.2 with
    | some v => Map.insert out x.1.name v
    | none => out) [])

/-- Which columns of an old row are kept, or all of them. -/
def keep (change : Change) (seen : Seen) : Option (List Bool) :=
  if !change.oldKey && !seen.keysOnly then none
  else some (change.relation.columns.zipIdx.map fun x =>
    (!change.oldKey || x.1.key) && (!seen.keysOnly || seen.keys.getD x.2 false))

/-- The row before the change, as much of it as was published. -/
def old (serde : Serde) (change : Change) (types : Types) (seen : Seen) (large : Bool) : Value :=
  match change.old with
  | some cells => row serde change.relation cells none (keep change seen) types seen large
  | none =>
    -- An update that left the key alone still says which row it was.
    if change.op = .update && change.relation.columns.any Column.key then
      let keys := change.relation.columns.zipIdx.map fun x =>
        x.1.key && (!seen.keysOnly || seen.keys.getD x.2 false)
      row serde change.relation change.record none (some keys) types seen large
    else .object []

def columns (relation : Relation) (types : Types) (seen : Seen) : Value :=
  .array ((relation.columns.zipIdx.filter fun x => seen.columns.getD x.2 false).map fun x =>
    .object [("name", .string x.1.name), ("type", .string (types.name x.1.typeOid))])

/-- The row as it is now. -/
def record (serde : Serde) (change : Change) (types : Types) (seen : Seen) (large : Bool) : Value :=
  row serde change.relation change.record change.old none types seen large

/-- One change, as the `data` half of a payload. -/
def data (serde : Serde) (change : Change) (types : Types) (seen : Seen) : Value :=
  let relation := change.relation
  let data : Map := [("schema", .string relation.schema), ("table", .string relation.table),
    ("type", .string change.op.event)]
  match seen.error with
  | some why =>
    let data := data.insert "commit_timestamp" .null
    let data := data.insert "columns" (.array [])
    let data := if change.op ≠ .delete then data.insert "record" (.object []) else data
    let data := if change.op ≠ .insert then data.insert "old_record" (.object []) else data
    .object (data.insert "errors" (.array [.string why]))
  | none =>
    let data := data.insert "commit_timestamp" (.string (stamp change.commitTs.toInt))
    let data := data.insert "columns" (columns relation types seen)
    let large : Bool := MOST < weight change
    let data := match change.op with
      | .insert => data.insert "record" (record serde change types seen large)
      | .update =>
        (data.insert "record" (record serde change types seen large)).insert "old_record"
          (old serde change types seen large)
      | .delete => data.insert "old_record" (old serde change types seen large)
    .object (data.insert "errors" (if large then .array [.string TOO_LARGE] else .null))

/-! ## What the catalog says -/

/-- What the catalog says about a table and a role. -/
structure Facts where
  rls : Bool
  columns : List Bool
  keys : List Bool
  keyAt : List Nat

/-- Which columns name the row: the primary key, or the identity's own
columns where there is none. -/
def identifying (relation : Relation) (keys : List Bool) : List Bool :=
  if keys.any id || relation.replica = .full then keys
  else relation.columns.map Column.key

/-- The facts out of one read of the catalog. -/
def catalogued (relation : Relation) (rls : Bool) (columns keys : List Bool) : Facts :=
  let keys := identifying relation keys
  { rls, columns, keys, keyAt := (keys.zipIdx.filter Prod.fst).map Prod.snd }

/-- What an asker may see of a change. `allowed` is what the database
answers when the asker selects the changed row by its key. -/
def seen (allowed : Except String Bool) (facts : Facts) (change : Change) : Except String Seen :=
  let seen : Seen :=
    { row := true, columns := facts.columns, keys := facts.keys, keysOnly := false, error := none }
  if change.op = .delete then .ok { seen with keysOnly := facts.rls }
  else if facts.keyAt.isEmpty then .ok { seen with error := some NO_KEY }
  else if facts.keyAt.any fun at' => !facts.columns.getD at' false then
    .ok { seen with error := some UNAUTHORIZED }
  else if !facts.rls then .ok seen
  else do
    let allowed ← allowed
    .ok { seen with row := allowed }

end Zou.Realtime
