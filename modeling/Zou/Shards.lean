import Mathlib.Data.List.Sort
import Mathlib.Data.List.Dedup
import Zou.ShardManifest

/-!
# The shard function and the split lineage

`shard(key) = hash mod N`, N a power of two per tenant. A split doubles N
and a merge halves it, and both are one swap of the tenant manifest: no
layer moves. What a shard serves afterwards is its own layers and those
of the shards its keys lived on in every past era.
-/

namespace Zou

/-- Little endian, four bytes. -/
def toLe32 (n : Nat) : List UInt8 :=
  [UInt8.ofNat n, UInt8.ofNat (n / 256), UInt8.ofNat (n / 256 ^ 2), UInt8.ofNat (n / 256 ^ 3)]

/-- The stripe hash: 16384 consecutive blocks of a relation stay on one
shard, and the fork is not hashed. `crc32c` is the crc library's. -/
def pageShard (crc32c : List UInt8 → Nat) (relfilenode block count : Nat) : Nat :=
  crc32c (toLe32 relfilenode ++ toLe32 (block / 2 ^ 14)) % max count 1

/-- The page shard a key lands on at shard count `count`. -/
def shardOf (crc32c : List UInt8 → Nat) (key : LayerKey) (count : Nat) : Nat :=
  pageShard crc32c key.rel key.block count

/-- Every shard number whose manifest may list layers holding keys of
`shard` at the current count. -/
def servingShards (shard count : Nat) (history : List ShardChange) : List Nat :=
  let counts := (count :: history.flatMap fun c => [c.frm, c.to]).dedup
  (counts.flatMap fun m =>
    if m ≤ count then [shard % m]
    else (List.range (m / count)).map fun i => shard + i * count).dedup.insertionSort (· ≤ ·)

end Zou
