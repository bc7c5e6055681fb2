import Zou.Lib.OrdMap
import Zou.Shards

/-!
# Landing segments

One batch window of frames from every tenant of a shard, with a summary a
tenant. A segment is modelled by what it decodes to; where a tenant's bytes
are inside it is left out. The digest of the summaries is the link to the
next segment of the chain.
-/

namespace Zou

/-- The part of a frame the log reads. -/
structure LogFrame where
  tenant : Nat
  writerEpoch : Nat
  startLsn : Lsn
  endLsn : Lsn
  payload : List UInt8
  deriving DecidableEq, Repr

inductive SegmentKind where
  | landing
  | seal
  deriving DecidableEq, Repr

structure SegmentHeader where
  kind : SegmentKind
  shard : Nat
  seq : Nat
  prevDigest : Nat
  deriving DecidableEq, Repr

structure TenantSummary where
  tenant : Nat
  minLsn : Lsn
  maxLsn : Lsn
  frames : Nat
  deriving DecidableEq, Repr

structure Segment where
  header : SegmentHeader
  frames : List LogFrame
  tenants : List TenantSummary
  deriving DecidableEq, Repr

/-- Little endian, `n` bytes. -/
def toLe : Nat → Nat → List UInt8
  | 0, _ => []
  | n + 1, x => UInt8.ofNat x :: toLe n (x / 256)

/-- The digest over the tenants' last lsns. `crc32c` is the crc
library's. -/
def tenantsDigest (crc32c : List UInt8 → Nat) (tenants : List TenantSummary) : Nat :=
  tenants.length * 2 ^ 32 ||| crc32c (tenants.flatMap fun t => toLe 16 t.tenant ++ toLe 8 t.maxLsn)

namespace Segment

/-- `push_encoded`, for the summaries. -/
def summarize (m : OrdMap Nat TenantSummary) (f : LogFrame) : OrdMap Nat TenantSummary :=
  let acc := (m.get? f.tenant).getD ⟨f.tenant, f.startLsn, f.endLsn, 0⟩
  m.insert f.tenant ⟨f.tenant, min acc.minLsn f.startLsn, max acc.maxLsn f.endLsn, acc.frames + 1⟩

/-- The builder's segment. -/
def build (header : SegmentHeader) (frames : List LogFrame) : Segment :=
  ⟨header, frames, (frames.foldl summarize OrdMap.empty).entries.map Prod.snd⟩

end Segment

end Zou
