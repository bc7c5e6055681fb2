import Mathlib.Algebra.Order.Ring.Nat

/-!
# Rows as the replication stream publishes them

The change a decoder hands over: the relation as postgres last described it,
the row as it is now, and as much of the row as it was as the replica
identity publishes.
-/

namespace Zou.Realtime

inductive Op where
  | insert
  | update
  | delete
  deriving DecidableEq

def Op.event : Op → String
  | .insert => "INSERT"
  | .update => "UPDATE"
  | .delete => "DELETE"

/-- How much of the old row a table publishes. -/
inductive Replica where
  | default
  | nothing
  | full
  | index
  deriving DecidableEq

structure Column where
  name : String
  typeOid : UInt32
  /-- Whether the column is part of what identifies the row. -/
  key : Bool
  deriving DecidableEq

structure Relation where
  oid : UInt32
  schema : String
  table : String
  replica : Replica
  columns : List Column
  deriving DecidableEq

inductive Cell where
  | null
  /-- Not written and stored out of line, so not sent. -/
  | unchanged
  | text (s : String)
  | bytes (b : List UInt8)
  deriving DecidableEq

structure Change where
  relation : Relation
  op : Op
  /-- The row as it is now, empty for a delete. -/
  record : List Cell
  /-- The row as it was, where the replica identity publishes one. -/
  old : Option (List Cell)
  /-- Whether `old` is the identifying columns rather than the whole row. -/
  oldKey : Bool
  commitTs : Int64
  lsn : UInt64
  deriving DecidableEq

end Zou.Realtime
