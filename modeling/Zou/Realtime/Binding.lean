import Mathlib.Data.Prod.Lex
import Mathlib.Data.String.Basic
import Zou.Lib.Double
import Zou.Lib.OrdMap
import Zou.Realtime.Pgoutput

/-!
# Who wanted which change

The bindings a client asked for, held by the table they are about and the
event they are for, and below that by the value an equality filters on. A
hash map is an ordered one here: what a lookup collects is sorted before
anybody sees it. The parser of doubles is a parameter.
-/

namespace Zou.Realtime

/-- Which changes a binding is about. -/
inductive Wants where
  | insert
  | update
  | delete
  | any
  deriving DecidableEq

/-- Which of the three lists a binding goes in. -/
def Wants.lists : Wants → List (Fin 3)
  | .insert => [0]
  | .update => [1]
  | .delete => [2]
  | .any => [0, 1, 2]

inductive Compare where
  | eq
  | neq
  | lt
  | lte
  | gt
  | gte
  | isIn
  deriving DecidableEq

/-- One column compared with one value. -/
structure Filter where
  column : String
  compare : Compare
  /-- The value as the client wrote it. -/
  value : String
  deriving DecidableEq

structure Binding where
  wants : Wants
  schema : String
  /-- The table, or nothing for every table in the schema. -/
  table : Option String
  filter : Option Filter
  deriving DecidableEq

/-! ## Comparing a cell with a filter -/

/-- `str::parse::<i128>`. -/
def parseI128 (s : String) : Option Int :=
  let (negative, digits) := match s.toList with
    | '-' :: digits => (true, digits)
    | '+' :: digits => (false, digits)
    | digits => (false, digits)
  if digits = [] ∨ !digits.all Char.isDigit then none
  else
    let n := Nat.ofDigitChars 10 digits 0
    let i : Int := if negative then -n else n
    if -2 ^ 127 ≤ i ∧ i < 2 ^ 127 then some i else none

def truth (value : String) : Option Bool :=
  if value ∈ ["t", "true", "TRUE", "yes", "on", "1"] then some true
  else if value ∈ ["f", "false", "FALSE", "no", "off", "0"] then some false
  else none

/-- `char::is_whitespace`. -/
def whitespace (c : Char) : Bool :=
  let n := c.toNat
  (9 ≤ n && n ≤ 13) || n = 32 || n = 0x85 || n = 0xa0 || n = 0x1680
    || (0x2000 ≤ n && n ≤ 0x200a) || n = 0x2028 || n = 0x2029 || n = 0x202f || n = 0x205f
    || n = 0x3000

/-- Take what passes off both ends. -/
def trimMatches (p : Char → Bool) (s : List Char) : List Char :=
  ((s.dropWhile p).reverse.dropWhile p).reverse

/-- The elements of an `in.(a,b,c)` list. -/
def list (value : String) : List String :=
  let inner := ((value.toList.dropWhile (· = '(')).reverse.dropWhile (· = ')')).reverse
  let ones := (inner.splitOn ',').map fun one =>
    trimMatches (· = '\'') (trimMatches (· = '"') (trimMatches whitespace one))
  (ones.filter fun one => !one.isEmpty).map String.ofList

/-- int2, int4, int8, oid. -/
def integers : List UInt32 := [21, 23, 20, 26]

/-- float4, float8, numeric. -/
def doubles : List UInt32 := [700, 701, 1700]

section

variable (parseF64 : String → Option F64)

/-- Compare a value postgres sent with a value a client wrote, in the
column's own type. -/
def Compare.compare (oid : UInt32) (value against : String) : Option Ordering :=
  if oid ∈ integers then do
    let left ← parseI128 value
    let right ← parseI128 against
    return Ord.compare left right
  else if oid ∈ doubles then do
    let left ← parseF64 value
    let right ← parseF64 against
    left.partialCmp right
  else if oid = 16 then do
    let left ← truth value
    let right ← truth against
    return Ord.compare left right
  else some (Ord.compare value against)

/-- Whether what a comparison came to is what the filter asked for. -/
def Compare.holds : Compare → Ordering → Bool
  | .eq, how => how = .eq
  | .neq, how => how ≠ .eq
  | .lt, how => how = .lt
  | .lte, how => how ≠ .gt
  | .gt, how => how = .gt
  | .gte, how => how ≠ .lt
  | .isIn, _ => false

/-- Where a relation has a column of a name. -/
def Relation.position (relation : Relation) (name : String) : Option Nat :=
  relation.columns.findIdx? fun column => column.name = name

/-- The cell of a column as text with the column's type, if it is one. -/
def textAt (relation : Relation) (cells : List Cell) (column : String) :
    Option (UInt32 × String) := do
  let at' ← relation.position column
  let held ← relation.columns[at']?
  match cells[at']? with
  | some (.text value) => some (held.typeOid, value)
  | _ => none

/-- Whether a row passes. -/
def Filter.passes (filter : Filter) (relation : Relation) (cells : List Cell) : Bool :=
  match textAt relation cells filter.column with
  | none => false
  | some (oid, value) =>
    match filter.compare with
    | .isIn => (list filter.value).any fun one =>
      Compare.compare parseF64 oid value one = some .eq
    | how => (Compare.compare parseF64 oid value filter.value).any how.holds

end

/-! ## The index -/

structure Entry where
  id : Nat
  binding : Binding
  deriving DecidableEq

/-- Which subscriptions asked for which value of one column: one map a
reading, since what is equal is the column's own. -/
structure Points where
  ints : OrdMap Int (List Entry)
  /-- By the bits, with the two zeroes read as one. -/
  reals : OrdMap Nat (List Entry)
  truths : Bool → List Entry
  texts : OrdMap String (List Entry)

/-- The entries of a key without those of an id, and no list left empty. -/
def dropFrom {K : Type} [LinearOrder K] (held : OrdMap K (List Entry)) (k : K) (id : Nat) :
    OrdMap K (List Entry) :=
  (held.adjust k fun entries => entries.filter fun entry => !decide (entry.id = id)).retain
    fun entries => !entries.isEmpty

def push {K : Type} [LinearOrder K] (held : OrdMap K (List Entry)) (k : K) (entry : Entry) :
    OrdMap K (List Entry) :=
  held.insert k ((held.get? k).getD [] ++ [entry])

/-- The double a filter value is filed under. -/
def real (parseF64 : String → Option F64) (value : String) : Option Nat :=
  ((parseF64 value).filter fun x => !x.isNan).map F64.key

namespace Points

def empty : Points := ⟨OrdMap.empty, OrdMap.empty, fun _ => [], OrdMap.empty⟩

section

variable (parseF64 : String → Option F64)

def add (points : Points) (value : String) (entry : Entry) : Points :=
  { ints := match parseI128 value with
      | some int => push points.ints int entry
      | none => points.ints
    reals := match real parseF64 value with
      | some bits => push points.reals bits entry
      | none => points.reals
    truths := match truth value with
      | some b => Function.update points.truths b (points.truths b ++ [entry])
      | none => points.truths
    texts := push points.texts value entry }

def remove (points : Points) (id : Nat) (value : String) : Points :=
  { ints := match parseI128 value with
      | some int => dropFrom points.ints int id
      | none => points.ints
    reals := match real parseF64 value with
      | some bits => dropFrom points.reals bits id
      | none => points.reals
    truths := match truth value with
      | some b => Function.update points.truths b
          ((points.truths b).filter fun entry => !decide (entry.id = id))
      | none => points.truths
    texts := dropFrom points.texts value id }

def isEmpty (points : Points) : Bool :=
  points.ints.entries.isEmpty && points.reals.entries.isEmpty
    && ((points.truths false).isEmpty && (points.truths true).isEmpty)
    && points.texts.entries.isEmpty

/-- Whoever asked for this value of this column, as the column's own type
reads it. -/
def matching (points : Points) (oid : UInt32) (value : String) : List Nat :=
  let found :=
    if oid ∈ integers then (parseI128 value).bind points.ints.get?
    else if oid ∈ doubles then (real parseF64 value).bind points.reals.get?
    else if oid = 16 then (truth value).map points.truths
    else points.texts.get? value
  (found.getD []).map Entry.id

end

end Points

/-- The filter a binding can be looked up by, which is an equality. -/
def point (binding : Binding) : Option Filter :=
  binding.filter.filter fun filter => filter.compare = .eq

/-- One event's worth of subscriptions on one table: equalities by their
column, and what has to be walked. -/
structure EventList where
  eq : OrdMap String Points
  rest : List Entry

/-- Points as what a column's map holds: empty ones are dropped. -/
def updatePoints (eq : OrdMap String Points) (column : String) (f : Points → Points) :
    OrdMap String Points :=
  match eq.get? column with
  | none => eq
  | some points => if (f points).isEmpty then eq.remove column else eq.insert column (f points)

namespace EventList

def empty : EventList := ⟨OrdMap.empty, []⟩

section

variable (parseF64 : String → Option F64)

def add (l : EventList) (entry : Entry) : EventList :=
  match point entry.binding with
  | some filter =>
    let points := (l.eq.get? filter.column).getD Points.empty
    { l with eq := l.eq.insert filter.column (points.add parseF64 filter.value entry) }
  | none => { l with rest := l.rest ++ [entry] }

def remove (l : EventList) (id : Nat) (binding : Binding) : EventList :=
  match point binding with
  | some filter =>
    { l with eq := updatePoints l.eq filter.column fun points =>
        points.remove parseF64 id filter.value }
  | none => { l with rest := l.rest.filter fun entry => !decide (entry.id = id) }

def isEmpty (l : EventList) : Bool := l.rest.isEmpty && l.eq.entries.isEmpty

/-- The ids in the list that asked for a change. -/
def matching (l : EventList) (relation : Relation) (cells : List Cell) : List Nat :=
  ((l.rest.filter fun entry => match entry.binding.filter with
      | some filter => filter.passes parseF64 relation cells
      | none => true).map Entry.id)
    ++ l.eq.entries.flatMap fun x => match textAt relation cells x.1 with
      | some (oid, value) => x.2.matching parseF64 oid value
      | none => []

end

end EventList

abbrev Lists := Fin 3 → EventList

namespace Lists

def empty : Lists := fun _ => EventList.empty

def isEmpty (lists : Lists) : Bool := (List.finRange 3).all fun at' => (lists at').isEmpty

/-- Change the lists of a binding's events. -/
def each (lists : Lists) (ats : List (Fin 3)) (f : EventList → EventList) : Lists :=
  ats.foldl (fun lists at' => Function.update lists at' (f (lists at'))) lists

end Lists

def listOf : Op → Fin 3
  | .insert => 0
  | .update => 1
  | .delete => 2

/-- Every binding anybody has asked for, indexed by what it is about. -/
structure Subscriptions where
  tables : OrdMap (String ×ₗ String) Lists
  schemas : OrdMap String Lists
  /-- Where each id was put. -/
  placed : OrdMap Nat Binding

namespace Subscriptions

def new : Subscriptions := ⟨OrdMap.empty, OrdMap.empty, OrdMap.empty⟩

section

variable (parseF64 : String → Option F64)

/-- Take an id out of the lists of a key, and drop them when all are empty. -/
def takeOut {K : Type} [LinearOrder K] (held : OrdMap K Lists) (k : K) (id : Nat)
    (binding : Binding) : OrdMap K Lists :=
  match held.get? k with
  | none => held
  | some lists =>
    let lists := lists.each binding.wants.lists fun l => l.remove parseF64 id binding
    if lists.isEmpty then held.remove k else held.insert k lists

def remove (subs : Subscriptions) (id : Nat) : Subscriptions :=
  match subs.placed.get? id with
  | none => subs
  | some binding =>
    let subs := { subs with placed := subs.placed.remove id }
    match binding.table with
    | some table =>
      let key := toLex (binding.schema, table)
      { subs with tables := takeOut parseF64 subs.tables key id binding }
    | none => { subs with schemas := takeOut parseF64 subs.schemas binding.schema id binding }

/-- File an entry in the lists of a key. -/
def putIn {K : Type} [LinearOrder K] (held : OrdMap K Lists) (k : K) (entry : Entry) :
    OrdMap K Lists :=
  held.insert k (((held.get? k).getD Lists.empty).each entry.binding.wants.lists fun l =>
    l.add parseF64 entry)

/-- Remember a binding under an id, in the place of one that had it. -/
def add (subs : Subscriptions) (id : Nat) (binding : Binding) : Subscriptions :=
  let subs := subs.remove parseF64 id
  let entry : Entry := ⟨id, binding⟩
  let subs := match binding.table with
    | some table =>
      { subs with tables := putIn parseF64 subs.tables (toLex (binding.schema, table)) entry }
    | none => { subs with schemas := putIn parseF64 subs.schemas binding.schema entry }
  { subs with placed := subs.placed.insert id binding }

/-- The cells a change is filtered on. -/
def cellsOf (change : Change) : List Cell :=
  match change.op with
  | .delete => change.old.getD []
  | _ => change.record

/-- The ids that asked for a change. -/
def matching (subs : Subscriptions) (change : Change) : List Nat :=
  let relation := change.relation
  let at' := listOf change.op
  let cells := cellsOf change
  let ofTable := match subs.tables.get? (toLex (relation.schema, relation.table)) with
    | some lists => (lists at').matching parseF64 relation cells
    | none => []
  let ofSchema := match subs.schemas.get? relation.schema with
    | some lists => (lists at').matching parseF64 relation cells
    | none => []
  (ofTable ++ ofSchema).mergeSort

end

end Subscriptions

end Zou.Realtime
