import Zou.Lib.OrdMap
import Zou.Lib.Worklist

/-!
# The keys views inherit

A view's column that came from a table's column holds what that column
holds. `derive` traces every column of the schema's views back through the
views in between and gives a view the foreign keys whose columns it
reaches; `primaryKeys` does the same for primary keys. `origins` reads a
view's printed parse tree and is a parameter here: nothing depends on what
it makes of a tree.
-/

namespace Zou.Rest

structure PkRow where
  oid : Int
  attnums : List Int
  deriving DecidableEq, Repr

structure ViewRow where
  oid : Int
  schema : String
  name : String
  attnums : List Int
  columns : List String
  tree : List Char
  deriving DecidableEq, Repr

structure KeyRow where
  constraint : String
  schema : String
  table : String
  oid : Int
  attnums : List Int
  columns : List String
  refSchema : String
  refTable : String
  refOid : Int
  refAttnums : List Int
  refColumns : List String
  unique : Bool
  inPk : Bool
  deriving DecidableEq, Repr

structure FkRow where
  constraint : String
  table : String
  columns : List String
  refTable : String
  refColumns : List String
  unique : Bool
  inPk : Bool
  deriving DecidableEq, Repr

/-- Where one column of a view came from, one step back. -/
structure Origin where
  column : Int
  table : Int
  tableColumn : Int
  deriving DecidableEq, Repr

/-- The name of the column with that attribute number. -/
def ViewRow.column (view : ViewRow) (attnum : Int) : Option String :=
  (view.attnums.findIdx? (· = attnum)).bind fun i => view.columns[i]?

/-- A relation and one of its columns. -/
abbrev TableColumn := Int × Int

/-- A view, by its index, and one of its columns, by name. -/
abbrev ViewColumn := Nat × String

section Trace

variable (origins : List Char → List Origin) (views : List ViewRow)

/-- The steps of the relation with that oid, of the last row where a view
is listed twice. -/
def stepsOf (oid : Int) : List Origin :=
  ((views.reverse.find? (·.oid = oid)).map fun view => origins view.tree).getD []

/-- One step back from a column. -/
def stepsFrom (at_ : TableColumn) : List TableColumn :=
  (stepsOf origins views at_.1).filterMap fun next =>
    if next.column = at_.2 then some (next.table, next.tableColumn) else none

/-- Every column some step leads to. -/
def targets : List TableColumn :=
  views.flatMap fun view => (origins view.tree).map fun o => (o.table, o.tableColumn)

/-- The list and the cursor `traced` begins with. -/
def traceStart (origin : Origin) : List TableColumn × Nat :=
  ([(origin.table, origin.tableColumn)], 0)

/-- Every column one step can be followed back to, the step's own included.
The fuel is a turn for each column any step leads to, and some more. -/
def traced (origin : Origin) : List TableColumn :=
  Worklist.run (stepsFrom origins views) ((targets origins views).length + 2) (traceStart origin)

/-- Every view's columns traced back, with where they landed. -/
def back (schema : String) : List (TableColumn × ViewColumn) :=
  views.zipIdx.flatMap fun (view, i) =>
    if view.schema ≠ schema then []
    else (stepsOf origins views view.oid).flatMap fun origin =>
      match view.column origin.column with
      | none => []
      | some name => (traced origins views origin).map fun landed => (landed, (i, name))

end Trace

/-! ## Ends of a key -/

/-- The view columns that landed on a column, in the order they did. -/
def landedOn (back : List (TableColumn × ViewColumn)) (key : TableColumn) : List ViewColumn :=
  back.filterMap fun e => if e.1 = key then some e.2 else none

/-- Under which names a view holds a column. -/
def heldAs (back : List (TableColumn × ViewColumn)) (view : Nat) (key : TableColumn) :
    List String :=
  ((landedOn back key).filter (·.1 = view)).map Prod.snd

/-- One name per position, every way round. -/
def spread (each : List (List String)) : List (List String) :=
  each.foldl (fun out names => out.flatMap fun soFar => names.map fun name => soFar ++ [name]) [[]]

/-- Which views hold a whole key of a table, and under which names. -/
def ends (back : List (TableColumn × ViewColumn)) (table : Int) (attnums : List Int) :
    List (Nat × List String) :=
  let views := (attnums.flatMap fun attnum => (landedOn back (table, attnum)).map Prod.fst).foldl
    Worklist.push []
  views.flatMap fun view =>
    let each := attnums.map fun attnum => heldAs back view (table, attnum)
    if each.any List.isEmpty then [] else (spread each).map fun columns => (view, columns)

/-- `views[at].name`. -/
def nameOf (views : List ViewRow) (i : Nat) : String := (views[i]?).elim "" ViewRow.name

/-! ## Foreign keys -/

namespace KeyRow

/-- The row of a key between two ends. -/
def between (key : KeyRow) (table : String) (columns : List String) (refTable : String)
    (refColumns : List String) : FkRow :=
  ⟨key.constraint, table, columns, refTable, refColumns, key.unique, key.inPk⟩

end KeyRow

/-- What `derive` adds for a key: the rows onto tables and those onto
views. -/
def deriveKey (schema : String) (views : List ViewRow) (back : List (TableColumn × ViewColumn))
    (key : KeyRow) : List FkRow × List FkRow :=
  let children := ends back key.oid key.attnums
  let parents := ends back key.refOid key.refAttnums
  let rows := children.flatMap fun (i, columns) =>
    if key.refSchema = schema then
      [key.between (nameOf views i) columns key.refTable key.refColumns] else []
  let ontoViews := children.flatMap fun (i, columns) =>
    parents.map fun (j, refColumns) =>
      key.between (nameOf views i) columns (nameOf views j) refColumns
  let ofTable := if key.schema ≠ schema then [] else parents.map fun (j, refColumns) =>
    key.between key.table key.columns (nameOf views j) refColumns
  (rows, ontoViews ++ ofTable)

def derive (origins : List Char → List Origin) (schema : String) (views : List ViewRow)
    (keys : List KeyRow) : List FkRow :=
  let from_ := back origins views schema
  (keys.flatMap fun key => (deriveKey schema views from_ key).1)
    ++ keys.flatMap fun key => (deriveKey schema views from_ key).2

/-! ## Primary keys -/

/-- One end of a primary key: a view's first way round of it is taken, and
a column it holds already is not taken twice. -/
def takeEnd (s : List Nat × OrdMap Nat (List String)) (e : Nat × List String) :
    List Nat × OrdMap Nat (List String) :=
  if e.1 ∈ s.1 then s
  else (s.1 ++ [e.1], s.2.insert e.1 (e.2.foldl Worklist.push ((s.2.get? e.1).getD [])))

def takeKey (back : List (TableColumn × ViewColumn)) (found : OrdMap Nat (List String))
    (pk : PkRow) : OrdMap Nat (List String) :=
  ((ends back pk.oid pk.attnums).foldl takeEnd ([], found)).2

/-- Where a name stands in view `i`. -/
def position (views : List ViewRow) (i : Nat) (name : String) : Option Nat :=
  views[i]?.bind fun view => view.columns.findIdx? (· = name)

/-- In the view's own column order, a name it has not got in front. -/
def inColumnOrder (views : List ViewRow) (i : Nat) (columns : List String) : List String :=
  columns.mergeSort fun a b =>
    match position views i a, position views i b with
    | some x, some y => x ≤ y
    | some _, none => false
    | none, _ => true

def primaryKeys (origins : List Char → List Origin) (schema : String) (views : List ViewRow)
    (pks : List PkRow) : List (String × List String) :=
  let from_ := back origins views schema
  let found := pks.foldl (takeKey from_) .empty
  found.entries.map fun e => (nameOf views e.1, inColumnOrder views e.1 e.2)

end Zou.Rest
