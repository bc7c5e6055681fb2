import Zou.Lib.JsonText
import Zou.Realtime.Json
import Zou.Rest.Scan

/-!
# The body of a write

`body_rows` reads the rows of a body and the columns they are written to,
`update_payload` makes of it the text an update binds. A json body goes on
as it arrived: where it is an array, `first_element` cuts the first element
out of the text with a count of brackets that knows about strings. The
readers of json, csv and forms, and what writes a value as json, are
parameters; a text is the list of its characters.
-/

namespace Zou.Rest

open JsonText (Tree Document space)

/-! ## Cutting the first element -/

/-- What `first_element` steps over from a place inside the array, up to the
end of the element or of the text. The depth is counted in 32 bits. -/
def elementOf (depth : Nat) (inString escaped : Bool) : Text → Text
  | [] => []
  | c :: s =>
    if inString then
      if escaped then c :: elementOf depth true false s
      else if c = '\\' then c :: elementOf depth true true s
      else if c = '"' then c :: elementOf depth false escaped s
      else c :: elementOf depth true escaped s
    else if c = '"' then c :: elementOf depth true escaped s
    else if c = '[' ∨ c = '\x7b' then c :: elementOf ((depth + 1) % 2 ^ 32) false escaped s
    else if (c = ']' ∨ c = '\x7d' ∨ c = ',') ∧ depth = 0 then []
    else if c = ']' ∨ c = '\x7d' then c :: elementOf (depth - 1) false escaped s
    else c :: elementOf depth false escaped s

def trimStart (s : Text) : Text := s.dropWhile space

def trimEnd (s : Text) : Text := (s.reverse.dropWhile space).reverse

/-- The text of the first element of a json array, or nothing when the
array is empty. -/
def firstElement (raw : Text) : Option Text :=
  match trimStart raw with
  | '[' :: inside =>
    let element := trimEnd (elementOf 0 false false (trimStart inside))
    if element = [] then none else some element
  | _ => none

/-- Whether a json body is an array, by its first character. -/
def sentAnArray (raw : Text) : Bool := (trimStart raw).head? = some '['

/-! ## Bodies -/

inductive Content where
  | json
  | csv
  | form
  /-- One value, or a media type no body may be written in, by its name. -/
  | other (name : String)

inductive BodyError where
  | unreadable (name : String)
  /-- Empty or invalid json. -/
  | invalid
  /-- All object keys must match. -/
  | keysMustMatch
  | csv

/-- A write's body, read; `raw` is a json body as it arrived. -/
structure Written where
  cols : List String
  rows : List Realtime.Value
  raw : Option Text

/-- What reads and writes the parts of a body. -/
structure Readers where
  json : Text → Option Realtime.Value
  csv : List UInt8 → Except BodyError (List String × List Realtime.Value)
  form : List UInt8 → List (String × String)
  write : Realtime.Value → Text

/-- `from_utf8`. -/
def fromUtf8 (bytes : List UInt8) : Option Text :=
  (ByteArray.utf8Decode? ⟨bytes.toArray⟩).map Array.toList

/-- The rows of a json body, an array's or the one it is. -/
def rowsOf : Realtime.Value → Bool × List Realtime.Value
  | .array rows => (true, rows)
  | other => (false, [other])

/-- A row of an array has the columns of the first one. -/
def keysMatch (cols : List String) : Realtime.Value → Bool
  | .object m => m.length = cols.length && cols.all fun c => (Realtime.Map.get? m c).isSome
  | _ => false

def bodyRows (r : Readers) (content : Content) (bytes : List UInt8)
    (columns : Option (List String)) : Except BodyError Written :=
  match content with
  | .csv => (r.csv bytes).map fun read => ⟨read.1, read.2, none⟩
  | .form =>
    let row := (r.form bytes).foldl (fun m p => Realtime.Map.insert m p.1 (.string p.2)) []
    .ok ⟨Realtime.Map.keys row, [.object row], none⟩
  | .other name => .error (.unreadable name)
  | .json =>
    match fromUtf8 bytes with
    | none => .error .invalid
    | some text =>
      match r.json text with
      | none => .error .invalid
      | some v =>
        let (bulk, rows) := rowsOf v
        match columns with
        | some list => .ok ⟨list, rows, some text⟩
        | none =>
          let cols := (rows.head?.map Realtime.Value.keys).getD []
          if bulk && !rows.all (keysMatch cols) then .error .keysMustMatch
          else .ok ⟨cols, rows, some text⟩

/-- An update's columns and the text it binds. -/
def updatePayload (r : Readers) (content : Content) (bytes : List UInt8)
    (columns : Option (List String)) : Except BodyError (List String × Text) :=
  (bodyRows r content bytes columns).map fun body =>
    match body.raw with
    | some raw =>
      if !sentAnArray raw then (body.cols, raw)
      else
        match firstElement raw with
        | some first => (body.cols, first)
        | none => ([], "null".toList)
    | none =>
      match body.rows.head? with
      | none => ([], "null".toList)
      | some first => (body.cols, r.write first)

end Zou.Rest
