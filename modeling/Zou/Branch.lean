import Mathlib.Data.List.Sort
import Mathlib.Data.List.Dedup
import Zou.Lib.Store
import Zou.ShardManifest

/-!
# Branches and point in time materialization

`branch` and `materialize_at` copy a tenant's manifests under a new
prefix. The shard manifests go first, by plain puts, and the tenant
manifest last, by a put that only lands on an empty key. The model keeps
the store's bytes apart from what they decode to, so that "the same
bytes" means what it says; the json codec is a parameter.
-/

namespace Zou

open Store (Prog)

/-- Objects of a store, by tenant. Keys of two tenants never meet: a ref
holds no slash. -/
inductive Key where
  | manifest (tenant : String)
  | history (tenant : String) (epoch unix : Nat)
  | shard (tenant : String) (n : Nat)
  | other (tenant : String) (path : String)
  deriving DecidableEq, Repr

def Key.tenant : Key → String
  | .manifest t | .history t _ _ | .shard t _ | .other t _ => t

/-- What `from_json` looks at before it deserializes. -/
structure Peek where
  format : Nat
  walTail : Bool
  parentTail : Bool
  deriving DecidableEq, Repr

/-- The json codec, one direction for each document. -/
structure Codec (B : Type) where
  toJson : Manifest → B
  peek : B → Option Peek
  parse : B → Option Manifest
  encode : PageShardManifest → B
  parseShard : B → Option PageShardManifest

namespace Codec

variable {B : Type}

/-- `Manifest::from_json`. -/
def fromJson (c : Codec B) (data : B) : Except ManifestError Manifest :=
  match c.peek data with
  | none => .error .json
  | some p =>
    if p.format > manifestFormat then .error (.formatTooNew p.format)
    else if p.walTail ∨ p.parentTail then .error .v1WalTail
    else match c.parse data with
      | none => .error .json
      | some m => .ok m

/-- `PageShardManifest::decode`. -/
def decode (c : Codec B) (data : B) : Except PageShardError PageShardManifest :=
  match c.parseShard data with
  | none => .error .json
  | some m => if m.format > pageShardFormat then .error (.formatTooNew m.format) else .ok m

end Codec

inductive BranchError where
  | noSource (tenantRef : String)
  | destinationExists (tenantRef : String)
  | noCheckpoint
  | atLsnUnavailable (atLsn : Lsn)
  | noHistory (unixTs : Nat)
  | belowHorizon (atLsn horizon : Lsn) (shard : Nat)
  | manifest (e : ManifestError)
  | shard (e : PageShardError)
  | store
  deriving DecidableEq, Repr

/-! ## The child's documents -/

/-- An entry a child takes over keeps its owner when it has one. -/
def inherit (src : String) (owner : Option String) : Option String :=
  some (owner.getD src)

/-- `child_of`: the child manifest from a parent state. -/
def childOf (parent : Manifest) (src dst : String) (atLsn : Option Lsn) (now : Nat) :
    Except BranchError Manifest :=
  match parent.checkpoints.getLast? with
  | none => .error .noCheckpoint
  | some newest =>
    let cut : Except BranchError (Nat × Lsn) :=
      match atLsn with
      | none => .ok (parent.checkpoints.length, newest.lsn)
      | some at_ =>
        match parent.checkpoints.reverse.findIdx? (·.lsn = at_) with
        | some i => .ok (parent.checkpoints.length - i, at_)
        | none => .error (.atLsnUnavailable at_)
    cut.map fun (upto, at_) =>
      let fresh := Manifest.new dst parent.pg.version
      { fresh with
        pg := ⟨fresh.pg.version, parent.pg.timeline⟩
        shards := parent.shards
        shardHistory := parent.shardHistory
        format := max fresh.format parent.format
        checkpoints := (parent.checkpoints.take upto).map fun c =>
          { c with owner := inherit src c.owner }
        branchOf := some ⟨src, at_⟩
        publishedUnix := some now }

/-- `branch_point`. -/
def branchPoint (child : Manifest) : Lsn := (child.branchOf.map BranchOf.atLsn).getD 0

/-- What a child inherits of one layer: nothing of a layer that starts
past the branch point, and a cut on one that reaches past it. -/
def inheritLayer (src : String) (at_ : Lsn) (e : LayerEntry) :
    Except PageShardError (Option LayerEntry) :=
  (LayerDesc.parse e.name e.size).map fun d =>
    if d.minLsn > at_ then none
    else some { e with
      owner := inherit src e.owner
      upto := if d.maxLsn > at_ ∨ e.upto.isSome then some (e.upto.elim at_ (min · at_))
        else e.upto }

/-- A branch below a shard's horizon cannot be served. -/
def refuseBelow (at_ : Lsn) (parent : Option PageShardManifest) : Except BranchError Unit :=
  match parent with
  | none => .ok ()
  | some parent =>
    match parent.horizon with
    | none => .ok ()
    | some horizon =>
      if horizon > at_ then .error (.belowHorizon at_ horizon parent.shard) else .ok ()

/-- The child's copy of one shard manifest, cut at the branch point. -/
def cutShard (src : String) (at_ : Lsn) (parent : PageShardManifest) :
    Except PageShardError PageShardManifest :=
  (parent.layers.mapM (inheritLayer src at_)).map fun layers =>
    { PageShardManifest.new parent.shard with
      format := 2
      diskConsistentLsn := min parent.diskConsistentLsn at_
      horizon := parent.horizon
      layers := layers.filterMap id }

/-! ## The calls -/

section Calls

variable {B : Type} (c : Codec B)

abbrev BranchM (B α : Type) := Prog Key B BranchError α

def getObj (k : Key) : BranchM B (Option B) := Store.read .store fun objs => Store.get objs k

/-- `PageShardManifest::load`. -/
def loadShard (tenant : String) (n : Nat) : BranchM B (Option PageShardManifest) := do
  match ← getObj (.shard tenant n) with
  | none => pure none
  | some data => Prog.lift ((c.decode data).map some |>.mapError .shard)

/-- The history keys of a tenant, sorted as a listing sorts them. -/
def historyKeys (tenant : String) (objs : List (Key × B)) : List (Nat × Nat) :=
  (objs.filterMap fun o => match o.1 with
    | .history t epoch unix => if t = tenant then some (epoch, unix) else none
    | _ => none).insertionSort fun a b => a.1 < b.1 ∨ (a.1 = b.1 ∧ a.2 ≤ b.2)

/-- The newest of the listed snapshots at or before `unixTs`, the last one
listed where stamps tie. -/
def newestAt (unixTs : Nat) (keys : List (Nat × Nat)) : Option (Nat × Nat) :=
  keys.foldl (fun best key =>
    if key.2 ≤ unixTs ∧ best.all (·.2 ≤ key.2) then some key else best) none

/-- `snapshot_at`. -/
def snapshotAt (src : String) (unixTs : Nat) : BranchM B Manifest := do
  let keys ← Store.read .store (historyKeys src)
  match newestAt unixTs keys with
  | none => Prog.throw (.noHistory unixTs)
  | some (epoch, unix) =>
    match ← getObj (.history src epoch unix) with
    | none => Prog.throw (.noHistory unixTs)
    | some data => Prog.lift ((c.fromJson data).mapError .manifest)

/-- The shard numbers a branch asks for: the listed ones and, because a
listing may lag, every live one. -/
def shardKeys (src : String) (shards : Nat) (objs : List (Key × B)) : List Nat :=
  ((objs.filterMap fun o => match o.1 with
    | .shard t n => if t = src then some n else none
    | _ => none) ++ List.range (shards % 2 ^ 16)).dedup.insertionSort (· ≤ ·)

/-- The first pass of `branch_shards`: every shard is asked before
anything is written. -/
def checkHorizons (src : String) (at_ : Lsn) : List Nat → BranchM B Unit
  | [] => pure ()
  | n :: ns => do
      let parent ← loadShard c src n
      Prog.lift (refuseBelow at_ parent)
      checkHorizons src at_ ns

/-- The second pass. -/
def copyShards (src dst : String) (at_ : Lsn) : List Nat → BranchM B Unit
  | [] => pure ()
  | n :: ns => do
      match ← loadShard c src n with
      | none => copyShards src dst at_ ns
      | some parent => do
          let child ← Prog.lift ((cutShard src at_ parent).mapError .shard)
          Store.put .store (.shard dst parent.shard) (c.encode child)
          copyShards src dst at_ ns

def branchShards (src dst : String) (at_ : Lsn) (shards : Nat) : BranchM B Unit := do
  let keys ← Store.read .store (shardKeys src shards)
  checkHorizons c src at_ keys
  copyShards c src dst at_ keys

/-- `publish_child`: land the child, refusing to clobber a tenant. -/
def publishChild (dst : String) (child : Manifest) : BranchM B Unit :=
  Store.putIfAbsent .store (.destinationExists dst) (.manifest dst) (c.toJson child)

/-- The part `branch` and `materialize_at` share, once the parent state is
known. -/
def landChild (src dst : String) (atLsn : Option Lsn) (now : Nat) (parent : Manifest) :
    BranchM B Manifest := do
  let child ← Prog.lift (childOf parent src dst atLsn now)
  branchShards c src dst (branchPoint child) parent.shards
  publishChild c dst child
  pure child

/-- The parent state of `branch`. -/
def currentManifest (src : String) : BranchM B Manifest := do
  match ← getObj (.manifest src) with
  | none => Prog.throw (.noSource src)
  | some data => Prog.lift ((c.fromJson data).mapError .manifest)

def branch (src dst : String) (atLsn : Option Lsn) (now : Nat) : BranchM B Manifest := do
  let parent ← currentManifest c src
  landChild c src dst atLsn now parent

def materializeAt (src dst : String) (unixTs now : Nat) : BranchM B Manifest := do
  let snapshot ← snapshotAt c src unixTs
  landChild c src dst none now snapshot

end Calls

end Zou
