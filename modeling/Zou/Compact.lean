import Zou.GetPage
import Zou.PageServe
import Zou.Reshard

/-!
# Compaction

The merge to a horizon, up to its first write. `mergePlan` cuts one image of
every key the layers below the horizon hold, at the horizon or just under
the flush point when that is lower. It retires the shard's own layers below
the cut, all but those that may hold a key no image could be built for. The
images go under names made of their coverage, and an object that already has
the name is adopted.

The cursors, the keep rule and the reader over the store are those of the
pass that compacts one shard, which is not modelled here. An entry past the
cut of an inherited layer is dropped when its cursor comes to it, so a
cursor is its entries within the cut.
-/

namespace Zou

open Store Total

inductive CompactError where
  | shard (e : PageShardError)
  | read (e : ReadError)
  | decode (name : LayerName) (source : LayerDecodeError)
  | build (e : LayerBuildError)
  | materialize (e : GetPageError)
  | map (e : LayerMapError)
  deriving DecidableEq, Repr

/-- What is fixed about the passes over one tenant: its name, the encoding
of layers, the stripe hash, and what the page service is made of. -/
structure Compactor where
  tenant : String
  codec : LayerCodec
  crc32c : List UInt8 → Nat
  pool : Option RedoPool
  stamp : LayerKey → List UInt8 → List UInt8
  frozen : LayerKey → Option (List UInt8)
  initializes : LayerKey → List UInt8 → Bool
  imageFull : List ImageEntry → Bool
  blockBudget : Nat

/-! ## Cursors -/

/-- The entries of the blocks of an index. -/
def readRows {E : Type} (decode : StoredBlock → LayerBlock → Except LayerDecodeError (List E))
    (o : LayerObj) : List LayerBlock → Except LayerDecodeError (List E)
  | [] => .ok []
  | row :: rows =>
    match o.blockAt row.offset row.len with
    | none => .error .corrupt
    | some b => match decode b row with
        | .error e => .error e
        | .ok es => match readRows decode o rows with
            | .error e => .error e
            | .ok rest => .ok (es ++ rest)

def deltaCursor (o : LayerObj) : Except LayerDecodeError (List DeltaEntry) :=
  if o.footer.kind ≠ .delta then .error .corrupt else
  match readRows decodeDeltaBlock o o.footer.blocks with
  | .error e => .error e
  | .ok es =>
    if es.Pairwise fun a b => toLex (a.key, a.lsn) < toLex (b.key, b.lsn) then .ok es
    else .error .corrupt

def imageCursor (o : LayerObj) : Except LayerDecodeError (List ImageEntry) :=
  if o.footer.kind ≠ .image then .error .corrupt else
  readRows decodeImageBlock o o.footer.blocks

/-! ## What a cut is of -/

/-- The lsn a fresh image cut at `dcl` may claim. -/
def imageCut (dcl : Lsn) : Lsn := dcl - 1

/-- The oldest era that consults the shard's manifest. -/
def keepCount (manifest : Manifest) (shard : Nat) : Nat :=
  (((manifest.shardHistory.flatMap fun c => [c.frm, c.to]) ++ [manifest.shards]).filter
    (· > shard)).min?.getD manifest.shards

/-- The reader of a shard over the store. -/
def readerEnv (tenant : String) (crc : Nat → List UInt8 → Nat) (shard : Nat)
    (objs : List (ShardKey × ShardObj)) : ReaderEnv where
  objects := fun ((t, n), name) => match get objs (.layer t n name) with
    | some (.layer o) => some o
    | _ => none
  crc := crc
  own := (tenant, shard)
  tenant := some tenant
  shard := some shard

namespace Compactor

variable (c : Compactor) (shard : Nat)

def service (objs : List (ShardKey × ShardObj)) : PageService :=
  ⟨readerEnv c.tenant c.codec.crc shard objs, c.pool, c.stamp, c.frozen, c.initializes⟩

def keep (manifest : Manifest) (key : LayerKey) : Bool :=
  shardOf c.crc32c key (keepCount manifest shard) = shard

abbrev CompactM := Total.Prog CompactError LayerReader

/-- A read in a pass. -/
def CompactM.read {α : Type} (x : ReadM α) : CompactM α :=
  ExceptT.adapt (fun e => .materialize (.read e)) x

/-- The pages the service can build at `at_`, and the keys it cannot build
one for. -/
def cutPages (svc : PageService) (map : LayerMap) (at_ : Lsn) :
    List LayerKey → CompactM (List ImageEntry × List LayerKey)
  | [] => pure ([], [])
  | key :: keys => do
      let r ← CompactM.read (svc.env.reconstruct map Memtable.new key at_)
      match svc.build false key r.base r.records with
      | .error e => throw (.materialize e)
      | .ok none =>
        let (es, bare) ← cutPages svc map at_ keys
        pure (es, key :: bare)
      | .ok (some page) =>
        let (es, bare) ← cutPages svc map at_ keys
        pure (⟨key, page⟩ :: es, bare)

/-- The lengths of the forks the layers say something about. -/
def cutSizes (svc : PageService) (map : LayerMap) (at_ : Lsn) :
    List LayerKey → CompactM (List ImageEntry)
  | [] => pure []
  | key :: keys => do
      let fork := LayerKey.relsize key.spc key.db key.rel key.fork
      let r ← CompactM.read (svc.env.reconstruct map Memtable.new fork at_)
      match PageService.relSize r.base r.records with
      | .error e => throw (.materialize e)
      | .ok none => cutSizes svc map at_ keys
      | .ok (some n) =>
        let es ← cutSizes svc map at_ keys
        pure (⟨key, SizeRec.image n⟩ :: es)

/-- The pages of the page keys, the bare ones of them, and the sizes of the
size keys. -/
def cutKeys (svc : PageService) (map : LayerMap) (at_ : Lsn) (keys : List LayerKey) :
    CompactM (List ImageEntry × List LayerKey × List ImageEntry) := do
  let (pages, bare) ← cutPages svc map at_ (keys.filter (·.kind = keyPage))
  let sizes ← cutSizes svc map at_ (keys.filter (·.kind = keyRelsize))
  pure (pages, bare, sizes)

/-- Cut the entries of an image where the builder is full. -/
def cutImages (full : List ImageEntry → Bool) :
    List ImageEntry → List ImageEntry → List (List ImageEntry)
  | cur, [] => if cur.isEmpty then [] else [cur]
  | cur, e :: es =>
    if full (cur ++ [e]) then (cur ++ [e]) :: cutImages full [] es
    else cutImages full (cur ++ [e]) es

/-- The images of some runs of entries. -/
def buildImages (at_ : Lsn) : List (List ImageEntry) → Except CompactError (List LayerObj)
  | [] => .ok []
  | es :: runs =>
    match buildImage c.codec.stored c.codec.crc es at_ c.codec.target with
    | .error e => .error (.build e)
    | .ok o => match buildImages at_ runs with
        | .error e => .error e
        | .ok os => .ok (o :: os)

/-! ## The merge to a horizon -/

/-- What a merge has worked out before it writes anything. -/
structure MergePlan where
  horizon : Lsn
  outputs : List LayerObj
  retire : List LayerName
  imaged : Nat
  sized : Nat
  unbased : Nat
  pinned : Nat

/-- Where to cut, unless there is nothing to do. -/
def mergeCut (own : PageShardManifest) (descs : List LayerDesc) (horizon : Lsn) : Option Lsn :=
  if descs.any (fun d => d.home.isSome || d.owner.isSome) then none else
  let at_ := min horizon (imageCut own.diskConsistentLsn)
  if at_ = 0 ∨ own.horizon.any (fun h => decide (h ≥ at_)) then none else
  match descs.filter fun d => d.maxLsn ≤ at_ with
  | [] => none
  | [d] => if d.kind = .image ∧ d.minLsn = at_ then none else some at_
  | _ => some at_

/-- The keys of a layer's entries. -/
def cursorKeys (kind : LayerKind) (o : LayerObj) : Except LayerDecodeError (List LayerKey) :=
  match kind with
  | .delta => (deltaCursor o).map (List.map DeltaEntry.key)
  | .image => (imageCursor o).map (List.map ImageEntry.key)

/-- The keys of the layers below the cut that are kept, and their
footers. -/
def keysBelow (env : ReaderEnv) (keep : LayerKey → Bool) :
    List LayerDesc → Except CompactError (List LayerKey × List LayerFooter)
  | [] => .ok ([], [])
  | d :: ds =>
    match env.fetch d with
    | .error e => .error (.read e)
    | .ok o =>
      match cursorKeys d.kind o with
      | .error e => .error (.decode d.name e)
      | .ok keys => match keysBelow env keep ds with
          | .error e => .error e
          | .ok (rest, footers) => .ok (keys.filter keep ++ rest, o.footer :: footers)

/-- A layer may hold one of the keys. -/
def holdsAny (crc : Nat → List UInt8 → Nat) (keys : List LayerKey) (d : LayerDesc)
    (f : LayerFooter) : Bool :=
  keys.any fun k => decide (d.minKey ≤ k) && decide (k ≤ d.maxKey) && f.mayContain crc k

/-- `merge_to_horizon` up to its first write. -/
def mergePlan (objs : List (ShardKey × ShardObj)) (manifest : Manifest) (own : PageShardManifest)
    (descs : List LayerDesc) (horizon : Lsn) : Except CompactError (Option MergePlan) :=
  match mergeCut own descs horizon with
  | none => .ok none
  | some at_ =>
    let svc := c.service shard objs
    let below := descs.filter fun d => d.maxLsn ≤ at_
    match keysBelow svc.env (c.keep shard manifest) below with
    | .error e => .error e
    | .ok (keys, footers) =>
      let keys := keys.dedup.insertionSort (· ≤ ·)
      match LayerMap.new descs with
      | .error e => .error (.map e)
      | .ok map =>
        match (exec (cutKeys svc map at_ keys) ⟨[], BlockCache.new c.blockBudget⟩).1 with
        | .error e => .error e
        | .ok (pages, bare, sizes) =>
          -- Keys of neither kind have no image and keep their layers.
          let unbased := bare
            ++ keys.filter fun k => k.kind ≠ keyPage ∧ k.kind ≠ keyRelsize
          match c.buildImages at_ (cutImages c.imageFull [] (pages ++ sizes)) with
          | .error e => .error e
          | .ok outputs =>
            let owned := (below.zip footers).filter fun x =>
              own.layers.any (·.name = x.1.name)
            let held := owned.filter fun x => holdsAny c.codec.crc unbased x.1 x.2
            let free := owned.filter fun x => ! holdsAny c.codec.crc unbased x.1 x.2
            .ok (some {
              horizon := at_
              outputs := outputs
              retire := free.map fun x => x.1.name
              imaged := pages.length
              sized := sizes.length
              unbased := unbased.length
              pinned := held.length })

end Compactor

end Zou
