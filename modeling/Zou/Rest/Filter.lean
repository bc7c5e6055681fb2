import Zou.Rest.Scan

/-!
# The filter grammar

A query pair like `age=not.gte.18` or `or=(a.eq.1,and(b.eq.2,c.eq.3))`
parses to a condition or to a tree of them, and renders back to a canonical
pair. The key names a field, possibly behind embedded resources and with a
json path, or one of the logic keywords; the value is
`[not.]operator[(modifier)].literal` or a parenthesized tree.

The mutual recursion of a group and its items is one `fix`: the items of a
group, with a nested group as an opening bracket and the items again.
-/

namespace Zou.Rest

open Scanner

/-- A filter operator, the token between the two dots. -/
inductive Op where
  | eq | neq | gt | gte | lt | lte | like | ilike | «match» | imatch | «in» | is | isDistinct
  | fts | plfts | phfts | wfts | cs | cd | ov | sl | sr | nxl | nxr | adj
  deriving DecidableEq, Repr

namespace Op

/-- The token this operator spells in a query string. -/
def name : Op → Text
  | eq => "eq".toList
  | neq => "neq".toList
  | gt => "gt".toList
  | gte => "gte".toList
  | lt => "lt".toList
  | lte => "lte".toList
  | like => "like".toList
  | ilike => "ilike".toList
  | «match» => "match".toList
  | imatch => "imatch".toList
  | «in» => "in".toList
  | is => "is".toList
  | isDistinct => "isdistinct".toList
  | fts => "fts".toList
  | plfts => "plfts".toList
  | phfts => "phfts".toList
  | wfts => "wfts".toList
  | cs => "cs".toList
  | cd => "cd".toList
  | ov => "ov".toList
  | sl => "sl".toList
  | sr => "sr".toList
  | nxl => "nxl".toList
  | nxr => "nxr".toList
  | adj => "adj".toList

def all : List Op :=
  [eq, neq, gt, gte, lt, lte, like, ilike, «match», imatch, «in», is, isDistinct, fts, plfts,
    phfts, wfts, cs, cd, ov, sl, sr, nxl, nxr, adj]

def parse (s : Text) : Option Op := all.find? fun op => op.name = s

/-- The operators an any or all modifier attaches to. -/
def quantifiable : Op → Bool
  | eq | gt | gte | lt | lte | like | ilike | «match» | imatch => true
  | _ => false

/-- Full text operators, whose modifier is a text search configuration. -/
def isFts : Op → Bool
  | fts | plfts | phfts | wfts => true
  | _ => false

end Op

/-- The values `is` takes, matched without regard to case. -/
def isValues : List Text :=
  ["null".toList, "not_null".toList, "true".toList, "false".toList, "unknown".toList]

inductive Quant where
  | any | all
  deriving DecidableEq, Repr

/-- The connective of a logic group. -/
inductive LogicOp where
  | and | or
  deriving DecidableEq, Repr

def LogicOp.name : LogicOp → Text
  | .and => "and".toList
  | .or => "or".toList

/-- Where a condition points: embedded resources, a column, and a json path
into it. -/
structure Field where
  embed : List Text
  column : Text
  path : List JsonStep
  deriving DecidableEq

inductive Value where
  | lit (s : Text)
  /-- The parenthesized list an `in` takes. -/
  | list (items : List Text)
  /-- The braced array an any or all quantifier takes. -/
  | array (items : List Text)
  deriving DecidableEq

structure Cond where
  field : Field
  negated : Bool
  op : Op
  quant : Option Quant
  /-- The text search configuration of a full text operator. -/
  config : Option Text
  value : Value
  deriving DecidableEq

/-- A node of a logic tree. -/
inductive Node where
  | group (op : LogicOp) (negated : Bool) (kids : List Node)
  | cond (c : Cond)

/-- What one query pair parses to. -/
inductive Parsed where
  | filter (c : Cond)
  | logic (embed : List Text) (op : LogicOp) (negated : Bool) (kids : List Node)

/-! ## Keys -/

/-- Characters that end a bare name. -/
def nameBreak (c : Char) : Bool := c ∈ ".,()\"\x7b\x7d".toList

/-- A parsed key segment. That the name was quoted exempts it from the
logic keywords. -/
structure Seg where
  name : Text
  path : List JsonStep
  quoted : Bool

/-- The name of a segment, and whether it was quoted. A bare one gives up
the spaces on its ends. -/
def segmentName : Cur (Text × Bool) := do
  if (← peek) = some '"' then
    return (← scanQuoted, true)
  return (trim (← scanName nameBreak), false)

def parseSegment : Cur Seg := do
  let (name, quoted) ← segmentName
  if name = [] then
    fail
  let path ← parseJsonPath
  return ⟨name, path, quoted⟩

def segmentsTurn (more : Cur (List Seg)) : Cur (List Seg) := do
  let seg ← parseSegment
  if ← eat '.' then
    if seg.path ≠ [] then
      fail
    return seg :: (← more)
  if ← done then
    return [seg]
  fail

/-- The segments of a key, dots between them, up to its end. -/
def parseSegments : Cur (List Seg) := fix segmentsTurn

/-- What one query key names. -/
inductive Key where
  | field (f : Field)
  | logic (embed : List Text) (op : LogicOp) (negated : Bool)

def embedNames (segs : List Seg) : Option (List Text) :=
  segs.mapM fun s => if s.path ≠ [] then none else some s.name

/-- The logic keyword the last segment of a key is, if it is one. -/
def Seg.logic (s : Seg) : Option LogicOp :=
  if s.quoted ∨ s.path ≠ [] then none
  else if s.name = "or".toList then some .or
  else if s.name = "and".toList then some .and
  else none

def Seg.isNot (s : Seg) : Bool := !s.quoted && s.path = [] && s.name = "not".toList

def keyOf (segs : List Seg) : Option Key :=
  match segs.getLast? with
  | none => none
  | some last =>
    let segs := segs.dropLast
    match last.logic with
    | some op =>
      let negated := segs.getLast?.any Seg.isNot
      let segs := if negated then segs.dropLast else segs
      (embedNames segs).map fun embed => .logic embed op negated
    | none => (embedNames segs).map fun embed => .field ⟨embed, last.name, last.path⟩

def parseKey (key : Text) : Option Key :=
  (parseSegments.run key).bind fun out => keyOf out.1

/-! ## Values -/

/-- One literal in a delimited context: quoted when the quotes close at a
terminator, else bare up to the next one. -/
def scanElement (terms : List Char) : Cur Text := do
  let quoted ← attempt do
    let s ← scanQuoted
    if (← peek).all (· ∈ terms) then
      return s
    fail
  match quoted with
  | some s => return s
  | none => readUntil fun r => r.head?.any (· ∈ terms)

def elementsTurn (close : Char) (more : Cur (List Text)) : Cur (List Text) := do
  let s ← scanElement [',', close]
  if ← eat ',' then
    return s :: (← more)
  expect close
  return [s]

def parseElements (close : Char) : Cur (List Text) := fix (elementsTurn close)

/-- A postgres array literal where a value inside a tree goes. -/
def scanArray : Cur Text := do
  expect '\x7b'
  let body ← readUntil fun r => r.head?.any fun c => c = '\x7b' || c = '\x7d'
  expect '\x7d'
  return '\x7b' :: (body ++ ['\x7d'])

/-- The bracket behind an operator: a text search configuration, or any or
all. -/
def parseModifier (op : Op) : Cur (Option Text × Option Quant) := do
  if (← peek) = some '(' ∧ (op.isFts ∨ op.quantifiable) then
    advance 1
    let m ← scanName nameBreak
    let modifier ← if op.isFts ∧ m ≠ [] then pure (some m, none)
      else if m = "any".toList ∧ op.quantifiable then pure (none, some .any)
      else if m = "all".toList ∧ op.quantifiable then pure (none, some .all)
      else fail
    expect ')'
    return modifier
  return (none, none)

def parseValue (op : Op) (quant : Option Quant) (inTree : Bool) : Cur Value := do
  if op = .in then
    skipSpaces
    expect '('
    skipSpaces
    return .list (← parseElements ')')
  else if quant.isSome then
    expect '\x7b'
    if ← eat '\x7d' then
      return .array []
    return .array (← parseElements '\x7d')
  else if inTree then
    match ← attempt scanArray with
    | some s => return .lit s
    | none => return .lit (← scanElement [',', ')'])
  else
    return .lit (← takeRest)

/-- What `is` takes, in lower case. -/
def isValue (value : Value) : Cur Value :=
  match value with
  | .lit s => if s.map Char.toLower ∈ isValues then pure (.lit (s.map Char.toLower)) else fail
  | _ => fail

/-- Parse `[not.]op[(modifier)].value`. In a tree the literal ends at a
comma or a closing bracket, at the top it runs to the end of the text. -/
def parseCondRhs (field : Field) (inTree : Bool) : Cur Cond := do
  let negated ← eatStr "not.".toList
  match Op.parse (← scanName nameBreak) with
  | none => fail
  | some op =>
    let (config, quant) ← parseModifier op
    expect '.'
    let value ← parseValue op quant inTree
    let value ← if op = .is then isValue value else pure value
    return ⟨field, negated, op, quant, config, value⟩

/-! ## Trees -/

/-- One item of a logic group read as a condition. -/
def parseCondition : Cur Node := do
  let seg ← parseSegment
  expect '.'
  return .cond (← parseCondRhs ⟨[], seg.name, seg.path⟩ true)

/-- The `[not.]and` or `[not.]or` that opens a nested group, up to its
bracket. -/
def groupHead : Cur (Option (LogicOp × Bool)) := attempt do
  let negated ← eatStr "not.".toList
  let name ← scanName nameBreak
  let op ← if trim name = "and".toList then pure LogicOp.and
    else if trim name = "or".toList then pure LogicOp.or
    else fail
  skipSpaces
  if (← peek) = some '(' then
    return (op, negated)
  fail

def openGroup : Cur Unit := do
  skipSpaces
  expect '('
  skipSpaces

/-- An item of a group, with `body` to read the body of a nested one. -/
def parseItem (body : Cur (List Node)) : Cur Node := do
  match ← groupHead with
  | some (op, negated) => return .group op negated (← body)
  | none => parseCondition

def groupTurn (items : Cur (List Node)) : Cur (List Node) := do
  let kid ← parseItem do
    openGroup
    items
  skipSpaces
  if ← eat ',' then
    skipSpaces
    return kid :: (← items)
  expect ')'
  skipSpaces
  return [kid]

/-- The items of a group behind its opening bracket, and the bracket that
closes it. -/
def groupItems : Cur (List Node) := fix groupTurn

/-- The body of a logic group, from its opening bracket on. -/
def parseGroupBody : Cur (List Node) := do
  openGroup
  groupItems

/-- Parse one query pair. -/
def parsePair (key value : Text) : Option Parsed :=
  match parseKey key with
  | none => none
  | some (.field f) => ((parseCondRhs f false).run value).map fun out => .filter out.1
  | some (.logic embed op negated) =>
    (parseGroupBody.run value).map fun out => .logic embed op negated out.1

/-! ## Rendering -/

/-- True when a name cannot be written bare. -/
def nameNeedsQuotes (s : Text) : Bool :=
  s = [] || (s.any fun c => nameBreak c || c = '\\') || decide (arrow <:+: s) || trim s ≠ s
    || s ∈ ["or".toList, "and".toList, "not".toList]

/-- True when an element cannot be written bare inside a delimited
context. -/
def elementNeedsQuotes (s : Text) : Bool :=
  s = [] || s.head?.any blank || s.any fun c => c ∈ ",()\"\x7b\x7d\\".toList

def writeName (s : Text) : Text := if nameNeedsQuotes s then writeEscaped s else s

def writeElement (s : Text) : Text := if elementNeedsQuotes s then writeEscaped s else s

def writeEmbed (embed : List Text) : Text := embed.flatMap fun e => writeName e ++ ['.']

def writeField (f : Field) : Text := writeEmbed f.embed ++ writeName f.column ++ writePath f.path

def writeNot (negated : Bool) : Text := if negated then "not.".toList else []

def writeConfig : Option Text → Text
  | some cfg => '(' :: (cfg ++ [')'])
  | none => []

def writeQuant : Option Quant → Text
  | some .any => "(any)".toList
  | some .all => "(all)".toList
  | none => []

def writeElements (items : List Text) : Text := [','].intercalate (items.map writeElement)

/-- Top level literals print verbatim, delimited ones get quoted as
needed. -/
def writeValue (top : Bool) : Value → Text
  | .lit s => if top then s else writeElement s
  | .list items => '(' :: (writeElements items ++ [')'])
  | .array items => '\x7b' :: (writeElements items ++ ['\x7d'])

def writeRhs (c : Cond) (top : Bool) : Text :=
  writeNot c.negated ++ c.op.name ++ writeConfig c.config ++ writeQuant c.quant ++ ['.']
    ++ writeValue top c.value

mutual

/-- A node as it appears inside a tree. -/
def writeNode : Node → Text
  | .group op negated kids => writeNot negated ++ op.name ++ '(' :: (writeKids kids ++ [')'])
  | .cond c => writeField c.field ++ '.' :: writeRhs c false

/-- The nodes of a group, commas between them. -/
def writeKids : List Node → Text
  | [] => []
  | [kid] => writeNode kid
  | kid :: kids => writeNode kid ++ ',' :: writeKids kids

end

/-- The canonical query pair for this tree. -/
def render : Parsed → Text × Text
  | .filter c => (writeField c.field, writeRhs c true)
  | .logic embed op negated kids =>
    (writeEmbed embed ++ writeNot negated ++ op.name, '(' :: (writeKids kids ++ [')']))

end Zou.Rest
