import Zou.Flush

/-!
# Split, merge and what a shard serves

A resize is one swap of the tenant manifest: it doubles or halves the shard
count and adds an entry to the lineage, with the lowest resume floor of the
era that ends. What a shard serves is its own manifest's layers and those
of its ancestors in every era of the lineage, or, when its own manifest
claims to cover its keyspace at the current count or a smaller one, its own
layers only.
-/

namespace Zou

open Store

/-- The most page shards one tenant may have. -/
def maxPageShards : Nat := 4096

inductive ShardError where
  | atCeiling
  | atFloor
  | shard (e : PageShardError)
  deriving DecidableEq, Repr

/-- `PageShardManifest::load` of a store that does not fail. -/
def loadManifest (objs : List (ShardKey × ShardObj)) (shard : Nat) :
    Except PageShardError (Option PageShardManifest) :=
  match get objs (.manifest shard) with
  | none => .ok none
  | some (.layer _) => .error .json
  | some (.shard m) =>
    if m.format > pageShardFormat then .error (.formatTooNew m.format) else .ok (some m)

/-- Where a shard's ingest resumes. -/
def resumeFloor (manifest : Manifest) (own : Option Lsn) : Lsn :=
  (own.orElse fun _ => manifest.shardHistory.getLast?.map ShardChange.at_).getD 0

/-- The manifest's claim holds at this count. -/
def PageShardManifest.covered (m : PageShardManifest) (count : Nat) : Bool :=
  m.covers.any fun c => decide (c ≤ count)

/-- The layers the manifests of some shards list, those of other shards
with their home. -/
def servingFrom (objs : List (ShardKey × ShardObj)) (shard : Nat) :
    List Nat → Except PageShardError (List LayerDesc)
  | [] => .ok []
  | s :: ss =>
    match loadManifest objs s with
    | .error e => .error e
    | .ok none => servingFrom objs shard ss
    | .ok (some m) =>
      match PageShardManifest.descs m.layers with
      | .error e => .error e
      | .ok ds => match servingFrom objs shard ss with
          | .error e => .error e
          | .ok rest =>
            .ok ((if s = shard then ds else ds.map fun d => { d with home := some s }) ++ rest)

/-- The layers one shard serves, and its resume floor. -/
def loadServingDescs (objs : List (ShardKey × ShardObj)) (manifest : Manifest) (shard : Nat) :
    Except PageShardError (List LayerDesc × Lsn) :=
  match loadManifest objs shard with
  | .error e => .error e
  | .ok own =>
    match own.filter (·.covered manifest.shards) with
    | some m => match PageShardManifest.descs m.layers with
        | .error e => .error e
        | .ok ds => .ok (ds, m.diskConsistentLsn)
    | none =>
      match servingFrom objs shard
          (servingShards shard manifest.shards manifest.shardHistory) with
      | .error e => .error e
      | .ok ds => .ok (ds, resumeFloor manifest (own.map PageShardManifest.diskConsistentLsn))

/-! ## Resizing -/

/-- The lowest resume floor of the shards. -/
def eraFloorOf (objs : List (ShardKey × ShardObj)) (manifest : Manifest) :
    List Nat → Except PageShardError (Option Lsn)
  | [] => .ok none
  | s :: ss =>
    match loadManifest objs s with
    | .error e => .error e
    | .ok own => match eraFloorOf objs manifest ss with
        | .error e => .error e
        | .ok rest =>
          let f := resumeFloor manifest (own.map PageShardManifest.diskConsistentLsn)
          .ok (some (rest.elim f (min f)))

def eraFloor (objs : List (ShardKey × ShardObj)) (manifest : Manifest) :
    Except PageShardError Lsn :=
  match eraFloorOf objs manifest (List.range manifest.shards) with
  | .error e => .error e
  | .ok floor => .ok (floor.getD 0)

def change (objs : List (ShardKey × ShardObj)) (manifest : Manifest) (grow : Bool) (unix : Nat) :
    Except ShardError Manifest :=
  if grow ∧ manifest.shards ≥ maxPageShards then .error .atCeiling
  else if ¬ grow ∧ manifest.shards < 2 then .error .atFloor
  else
    match eraFloor objs manifest with
    | .error e => .error (.shard e)
    | .ok at_ =>
      let count := if grow then manifest.shards * 2 else manifest.shards / 2
      .ok { manifest with
        shardHistory := manifest.shardHistory ++ [⟨manifest.shards, count, at_, unix⟩]
        shards := count
        format := max manifest.format 3
        publishedUnix := some unix }

def split (objs : List (ShardKey × ShardObj)) (manifest : Manifest) (unix : Nat) :
    Except ShardError Manifest := change objs manifest true unix

def merge (objs : List (ShardKey × ShardObj)) (manifest : Manifest) (unix : Nat) :
    Except ShardError Manifest := change objs manifest false unix

/-- Every one of the shards covers its keyspace by itself. -/
def allCovered (objs : List (ShardKey × ShardObj)) (count : Nat) :
    List Nat → Except PageShardError Bool
  | [] => .ok true
  | s :: ss =>
    match loadManifest objs s with
    | .error e => .error e
    | .ok own => if own.any (·.covered count) then allCovered objs count ss else .ok false

/-- Retire the lineage; none when some shard still leans on it. -/
def pruneLineage (objs : List (ShardKey × ShardObj)) (manifest : Manifest) :
    Except PageShardError (Option Manifest) :=
  if manifest.shardHistory = [] then .ok (some manifest) else
  match allCovered objs manifest.shards (List.range manifest.shards) with
  | .error e => .error e
  | .ok true => .ok (some { manifest with shardHistory := [] })
  | .ok false => .ok none

end Zou
