import Mathlib.Algebra.Order.Ring.Nat

/-!
# The tenant manifest

The root object of one database: who holds the writer lease and at
which epoch, which checkpoints exist, how many page shards there are
and which shard counts came before. Every mutable decision about a
tenant is one swap of this object.

Log sequence numbers are natural numbers: the code compares them, takes
minima and maxima and subtracts with saturation, and never wraps one.
-/

namespace Zou

/-- A Postgres log sequence number. -/
abbrev Lsn := Nat

/-- Newest manifest format this code reads. -/
def manifestFormat : Nat := 3

inductive ManifestError where
  | formatTooNew (found : Nat)
  | v1WalTail
  | json
  deriving DecidableEq, Repr

structure Lease where
  holder : String
  expiresUnix : Nat
  fence : Nat
  endpoint : Option String
  ttlSecs : Option Nat
  deriving DecidableEq, Repr

structure PgInfo where
  version : Nat
  timeline : Nat
  deriving DecidableEq, Repr

inductive CheckpointKind where
  | full
  | delta
  deriving DecidableEq, Repr

structure CheckpointRef where
  id : String
  lsn : Lsn
  kind : CheckpointKind
  owner : Option String
  deriving DecidableEq, Repr

structure BranchOf where
  tenantRef : String
  atLsn : Lsn
  deriving DecidableEq, Repr

/-- One shard count change, the record a split or merge leaves behind. -/
structure ShardChange where
  frm : Nat
  «to» : Nat
  at_ : Lsn
  unix : Nat
  deriving DecidableEq, Repr

structure Manifest where
  format : Nat
  tenantRef : String
  epoch : Nat
  lease : Option Lease
  pg : PgInfo
  checkpoints : List CheckpointRef
  foldedUpto : Option Lsn
  pagesElidedFrom : Option Lsn
  branchOf : Option BranchOf
  shards : Nat
  shardHistory : List ShardChange
  publishedUnix : Option Nat
  deriving DecidableEq, Repr

namespace Manifest

/-- A fresh manifest for a brand new database. -/
def new (tenantRef : String) (pgVersion : Nat) : Manifest where
  format := 2
  tenantRef := tenantRef
  epoch := 0
  lease := none
  pg := ⟨pgVersion, 1⟩
  checkpoints := []
  foldedUpto := none
  pagesElidedFrom := none
  branchOf := none
  shards := 1
  shardHistory := []
  publishedUnix := none

/-- Everything the lease protocol does not own: the manifest with its
lease and its epoch taken out. -/
def body (m : Manifest) : Manifest := { m with epoch := 0, lease := none }

end Manifest

end Zou
