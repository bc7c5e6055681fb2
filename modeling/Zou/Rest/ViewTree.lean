import Zou.Rest.ViewKeys

/-!
# The printed tree of a view

Postgres keeps the query behind a view as a printed tree: words, lists in
parentheses, and nodes in braces whose fields are named with a leading
colon. `origins` reads the tree and pulls the target list out of it.

The reader recurses on what is left of the text and nothing makes it take a
character each time, so here it runs on fuel: `none` is a reader that has
not come to an end yet.
-/

namespace Zou.Rest

namespace ViewTree

abbrev Text := List Char

inductive Node where
  | word (text : Text)
  | list (items : List Node)
  | named (tag : Text) (fields : List (Text × Node))

/-! ## Reading -/

/-- `char::is_whitespace`. -/
def isWhitespace (c : Char) : Bool :=
  let n := c.toNat
  (9 ≤ n && n ≤ 13) || n = 0x20 || n = 0x85 || n = 0xa0 || n = 0x1680
    || (0x2000 ≤ n && n ≤ 0x200a) || n = 0x2028 || n = 0x2029 || n = 0x202f || n = 0x205f
    || n = 0x3000

def skip (chars : Text) : Text := chars.dropWhile isWhitespace

/-- What ends a word that is not behind a backslash. -/
def ends (c : Char) : Bool := isWhitespace c || c ∈ ['(', ')', '\x7b', '\x7d', ':']

/-- One token and what is left. -/
def word : Text → Text × Text
  | [] => ([], [])
  | c :: chars =>
    if c = '\\' then
      match chars with
      | [] => ([], [])
      | d :: chars => (word chars).map (d :: ·) id
    else if ends c then ([], c :: chars)
    else (word chars).map (c :: ·) id

/-- `?`: where there was nothing to read the reader it is in ends too. -/
def orEnd (r : Option Node × Text) (go : Node → Text → Option (Option Node × Text)) :
    Option (Option Node × Text) :=
  match r.1 with
  | none => some (none, r.2)
  | some node => go node r.2

mutual

/-- One thing and what is left: `some (none, _)` where the text ended
before there was one. -/
def read : Nat → Text → Option (Option Node × Text)
  | 0, _ => none
  | fuel + 1, chars =>
    match skip chars with
    | [] => some (none, [])
    | c :: rest =>
      if c = '(' then items fuel [] rest
      else if c = '\x7b' then fields fuel (word rest).1 [] (word rest).2
      else some (some (.word (word (c :: rest)).1), (word (c :: rest)).2)

/-- The loop in a list. -/
def items : Nat → List Node → Text → Option (Option Node × Text)
  | 0, _, _ => none
  | fuel + 1, out, chars =>
    match skip chars with
    | [] => some (some (.list out), [])
    | c :: rest =>
      if c = ')' then some (some (.list out), rest)
      else (read fuel (c :: rest)).bind fun r =>
        orEnd r fun item chars => items fuel (out ++ [item]) chars

/-- The loop in a node. What is not named is read and let go. -/
def fields : Nat → Text → List (Text × Node) → Text → Option (Option Node × Text)
  | 0, _, _, _ => none
  | fuel + 1, tag, out, chars =>
    match skip chars with
    | [] => some (some (.named tag out), [])
    | c :: rest =>
      if c = '\x7d' then some (some (.named tag out), rest)
      else if c = ':' then (read fuel (word rest).2).bind fun r =>
        orEnd r fun value chars => fields fuel tag (out ++ [((word rest).1, value)]) chars
      else (read fuel (c :: rest)).bind fun r =>
        orEnd r fun _ chars => fields fuel tag out chars

end

theorem read_succ (fuel : Nat) (chars : Text) : read (fuel + 1) chars =
    match skip chars with
    | [] => some (none, [])
    | c :: rest =>
      if c = '(' then items fuel [] rest
      else if c = '\x7b' then fields fuel (word rest).1 [] (word rest).2
      else some (some (.word (word (c :: rest)).1), (word (c :: rest)).2) :=
  rfl

theorem items_succ (fuel : Nat) (out : List Node) (chars : Text) : items (fuel + 1) out chars =
    match skip chars with
    | [] => some (some (.list out), [])
    | c :: rest =>
      if c = ')' then some (some (.list out), rest)
      else (read fuel (c :: rest)).bind fun r =>
        orEnd r fun item chars => items fuel (out ++ [item]) chars :=
  rfl

theorem fields_succ (fuel : Nat) (tag : Text) (out : List (Text × Node)) (chars : Text) :
    fields (fuel + 1) tag out chars =
    match skip chars with
    | [] => some (some (.named tag out), [])
    | c :: rest =>
      if c = '\x7d' then some (some (.named tag out), rest)
      else if c = ':' then (read fuel (word rest).2).bind fun r =>
        orEnd r fun value chars => fields fuel tag (out ++ [((word rest).1, value)]) chars
      else (read fuel (c :: rest)).bind fun r => orEnd r fun _ chars => fields fuel tag out chars :=
  rfl

def parse (fuel : Nat) (text : Text) : Option Node :=
  (read fuel text).map fun r => r.1.getD (.word [])

/-! ## Nodes -/

namespace Node

def tag : Node → Option Text
  | .named tag _ => some tag
  | _ => none

def field (node : Node) (name : Text) : Option Node :=
  match node with
  | .named _ fields => (fields.find? (·.1 = name)).map Prod.snd
  | _ => none

/-- `str::parse::<i64>`. -/
def parseI64 (text : Text) : Option Int :=
  let digits := if text.head? = some '-' ∨ text.head? = some '+' then text.tail else text
  if digits = [] ∨ ¬ digits.all Char.isDigit then none
  else
    let n := Nat.ofDigitChars 10 digits 0
    let i : Int := if text.head? = some '-' then -n else n
    if -2 ^ 63 ≤ i ∧ i < 2 ^ 63 then some i else none

/-- A field whose value is a number, or a boolean written as a word. -/
def number (node : Node) (name : Text) : Option Int :=
  (node.field name).bind fun value =>
    match value with
    | .word text =>
      if text = "true".toList then some 1
      else if text = "false".toList then some 0
      else parseI64 text
    | _ => none

def items : Node → List Node
  | .list items => items
  | _ => []

mutual

/-- The first node of that type, in here or in the lists in here. -/
def find (tag : Text) : Node → Option Node
  | .word _ => none
  | .list items => findIn tag items
  | .named t fields => if t = tag then some (.named t fields) else none

def findIn (tag : Text) : List Node → Option Node
  | [] => none
  | item :: items => (find tag item).or (findIn tag items)

end

end Node

/-! ## The target list -/

/-- `as i32`. -/
def asI32 (i : Int) : Int := Int.bmod i (2 ^ 32)

/-- The origin of one entry of a target list. -/
def origin (entry : Node) : Option Origin :=
  if entry.tag ≠ some "TARGETENTRY".toList ∨ entry.number "resjunk".toList = some 1 then none
  else
    match entry.number "resno".toList, entry.number "resorigtbl".toList,
      entry.number "resorigcol".toList with
    | some column, some table, some tableColumn =>
      if table = 0 then none else some ⟨asI32 column, table, asI32 tableColumn⟩
    | _, _, _ => none

/-- The items of the first query's target list. -/
def targetList (root : Node) : List Node :=
  match (root.find "QUERY".toList).bind fun query => query.field "targetList".toList with
  | some list => list.items
  | none => []

def origins (fuel : Nat) (tree : Text) : Option (List Origin) :=
  (parse fuel tree).map fun root => (targetList root).filterMap origin

end ViewTree

end Zou.Rest
