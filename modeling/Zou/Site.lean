import Zou.Branch
import Zou.Compact

/-!
# Tenants that share a store

The documents of every tenant, as bytes, and the layer objects under every
prefix. A read of a tenant goes by its manifest to the shard of the key,
takes the layers that shard serves, and reconstructs from them. What
happens next to it is a put of a layer, a commit on a shard manifest, or a
put of another document; a layer put keeps what is there.
-/

namespace Zou

open Store Total

/-! ## The layers a shard serves -/

/-- `servingFrom` over any way to load a shard manifest. -/
def servingFromBy (load : Nat → Except PageShardError (Option PageShardManifest)) (shard : Nat) :
    List Nat → Except PageShardError (List LayerDesc)
  | [] => .ok []
  | s :: ss =>
    match load s with
    | .error e => .error e
    | .ok none => servingFromBy load shard ss
    | .ok (some m) =>
      match PageShardManifest.descs m.layers with
      | .error e => .error e
      | .ok ds => match servingFromBy load shard ss with
          | .error e => .error e
          | .ok rest =>
            .ok ((if s = shard then ds else ds.map fun d => { d with home := some s }) ++ rest)

/-- `load_serving_descs` over any way to load a shard manifest. -/
def servingDescsBy (load : Nat → Except PageShardError (Option PageShardManifest))
    (manifest : Manifest) (shard : Nat) : Except PageShardError (List LayerDesc × Lsn) :=
  match load shard with
  | .error e => .error e
  | .ok own =>
    match own.filter (·.covered manifest.shards) with
    | some m => match PageShardManifest.descs m.layers with
        | .error e => .error e
        | .ok ds => .ok (ds, m.diskConsistentLsn)
    | none =>
      match servingFromBy load shard
          (servingShards shard manifest.shards manifest.shardHistory) with
      | .error e => .error e
      | .ok ds => .ok (ds, resumeFloor manifest (own.map PageShardManifest.diskConsistentLsn))

/-! ## The store -/

structure Site (B : Type) where
  docs : List (Key × B)
  layers : List (((String × Nat) × LayerName) × LayerObj)

inductive SiteError where
  | noTenant
  | manifest (e : ManifestError)
  | shard (e : PageShardError)
  | map (e : LayerMapError)
  | read (e : ReadError)
  deriving DecidableEq, Repr

/-- A commit on a shard manifest. -/
inductive ShardEdit where
  | publish (e : LayerEntry) (upto : Lsn)
  | advance (lsn : Lsn)
  | swap (retire : List LayerName) (add : List LayerEntry) (covers : Option Nat)
      (horizon : Option Lsn)
  deriving DecidableEq, Repr

def ShardEdit.apply (m : PageShardManifest) : ShardEdit → PageShardManifest
  | .publish e upto => m.publishLayer e upto
  | .advance lsn => m.advanceConsistent lsn
  | .swap retire add covers horizon => m.swapLayers retire add covers horizon

inductive SiteStep (B : Type) where
  /-- The put of a flush, of a compaction's output or of a seeded base. -/
  | put (tenant : String) (shard : Nat) (o : LayerObj)
  | commit (tenant : String) (shard : Nat) (edit : ShardEdit)
  /-- A swap of a tenant manifest, its history, or what a branch copies. -/
  | doc (key : Key) (data : B)

/-- The tenant whose documents a step writes. -/
def SiteStep.writes {B : Type} : SiteStep B → Option String
  | .put .. => none
  | .commit tenant .. => some tenant
  | .doc key _ => some key.tenant

namespace Site

variable {B : Type} (c : Codec B)

def loadShardOf (s : Site B) (tenant : String) (n : Nat) :
    Except PageShardError (Option PageShardManifest) :=
  match get s.docs (.shard tenant n) with
  | none => .ok none
  | some data => (c.decode data).map some

def manifestAt (s : Site B) (tenant : String) : Except SiteError Manifest :=
  match get s.docs (.manifest tenant) with
  | none => .error .noTenant
  | some data => (c.fromJson data).mapError .manifest

/-- The reader of a tenant's shard. -/
def env (crc : Nat → List UInt8 → Nat) (s : Site B) (tenant : String) (shard : Nat) :
    ReaderEnv where
  objects := get s.layers
  crc := crc
  own := (tenant, shard)
  tenant := some tenant
  shard := some shard

section

variable (crc : Nat → List UInt8 → Nat) (crc32c : List UInt8 → Nat) (budget : Nat)

/-- A read of a key through the shard manifests, by a fresh reader and with
no memtable. -/
def read (s : Site B) (tenant : String) (key : LayerKey) (lsn : Lsn) :
    Except SiteError Reconstruction := do
  let manifest ← manifestAt c s tenant
  let shard := shardOf crc32c key manifest.shards
  let (descs, _) ← (servingDescsBy (s.loadShardOf c tenant) manifest shard).mapError .shard
  let map ← (LayerMap.new descs).mapError .map
  (exec ((env crc s tenant shard).reconstruct map Memtable.new key lsn)
    ⟨[], BlockCache.new budget⟩).1.mapError .read

end

/-- A commit loads the manifest or starts a new one; an advance of one that
is not there changes nothing. -/
def commit (s : Site B) (tenant : String) (n : Nat) (edit : ShardEdit) : Site B :=
  match s.loadShardOf c tenant n with
  | .error _ => s
  | .ok own =>
    match own, edit with
    | none, .advance _ => s
    | own, edit => { s with
        docs := (.shard tenant n, c.encode (edit.apply (own.getD (PageShardManifest.new n))))
          :: s.docs }

def next (s : Site B) : SiteStep B → Site B
  | .put tenant shard o =>
    match get s.layers ((tenant, shard), o.name) with
    | some _ => s
    | none => { s with layers := (((tenant, shard), o.name), o) :: s.layers }
  | .commit tenant n edit => s.commit c tenant n edit
  | .doc key data => { s with docs := (key, data) :: s.docs }

end Site

end Zou
