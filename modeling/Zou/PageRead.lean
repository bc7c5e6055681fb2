import Zou.Lib.Total
import Zou.Layer
import Zou.LayerMap

/-!
# The layer reader

Reconstruct `(key, lsn)`: plan on the map, take the base from the newest
image that holds the key, collect the records above it from the delta
layers and the memtable, merge on lsn. Footers and blocks go through two
caches keyed by the layer's name, the blocks with their offset; which
tenant and shard an object belongs to is not part of either key.

The store does not fail here. How many range reads a footer takes is left
out, and a size that is not the object's is an object that does not parse.
-/

namespace Zou

inductive ReadError where
  | missing (name : LayerName)
  | layer (name : LayerName) (source : LayerDecodeError)
  | mismatched (name : LayerName)
  | foreignLayer (name : LayerName) (owner : String)
  deriving DecidableEq, Repr

structure Reconstruction where
  base : Option (List UInt8)
  baseLsn : Option Lsn
  records : List (Lsn × List UInt8)
  layersTouched : Nat
  deriving DecidableEq, Repr

/-! ## The block cache -/

structure Cached where
  block : StoredBlock
  used : Nat
  deriving DecidableEq, Repr

structure BlockCache where
  blocks : List ((LayerName × Nat) × Cached)
  bytes : Nat
  budget : Nat
  clock : Nat
  deriving DecidableEq, Repr

namespace BlockCache

def new (budget : Nat) : BlockCache := ⟨[], 0, budget, 0⟩

def get (c : BlockCache) (name : LayerName) (offset : Nat) : Option StoredBlock × BlockCache :=
  match c.blocks.lookup (name, offset) with
  | none => (none, { c with clock := c.clock + 1 })
  | some e =>
    (some e.block, { c with
      clock := c.clock + 1
      blocks := ((name, offset), ⟨e.block, c.clock + 1⟩)
        :: c.blocks.filter fun x => x.1 ≠ (name, offset) })

/-- Drop the oldest of these until the target is met. -/
def evictLoop (target : Nat) : List ((LayerName × Nat) × Cached) → BlockCache → BlockCache
  | [], c => c
  | e :: es, c =>
    if c.bytes ≤ target then c
    else evictLoop target es { c with
      blocks := c.blocks.filter fun x => x.1 ≠ e.1
      bytes := c.bytes - e.2.block.row.len }

/-- Least recently used first, down to three quarters of the budget. -/
def evict (c : BlockCache) : BlockCache :=
  evictLoop (c.budget - c.budget / 4) (c.blocks.insertionSort fun a b => a.2.used ≤ b.2.used) c

def put (c : BlockCache) (name : LayerName) (offset : Nat) (b : StoredBlock) : BlockCache :=
  if b.row.len > c.budget then c else
  let old := ((c.blocks.lookup (name, offset)).map fun e => e.block.row.len).getD 0
  let c' : BlockCache := { c with
    clock := c.clock + 1
    blocks := ((name, offset), ⟨b, c.clock + 1⟩)
      :: c.blocks.filter fun x => x.1 ≠ (name, offset)
    bytes := c.bytes + b.row.len - old }
  if c'.bytes > c'.budget then c'.evict else c'

end BlockCache

/-! ## The reader -/

/-- What is fixed about a reader: the store, the prefix its own layers are
under, and the tenant and shard it was bound to, if any. -/
structure ReaderEnv where
  objects : (String × Nat) × LayerName → Option LayerObj
  crc : Nat → List UInt8 → Nat
  own : String × Nat
  tenant : Option String
  shard : Option Nat

structure LayerReader where
  footers : List (LayerName × LayerFooter)
  blocks : BlockCache

abbrev ReadM := Total.Prog ReadError LayerReader

namespace ReaderEnv

variable (env : ReaderEnv)

/-- The object key of a layer: owner swaps the tenant, home swaps the
shard. -/
def objectKey (d : LayerDesc) : Except ReadError ((String × Nat) × LayerName) :=
  if d.owner = none ∧ d.home = none then .ok (env.own, d.name) else
  let foreign : ReadError := .foreignLayer d.name (d.owner.getD "a split ancestor")
  match d.owner.orElse fun _ => env.tenant, d.home.orElse fun _ => env.shard with
  | some tenant, some shard => .ok ((tenant, shard), d.name)
  | _, _ => .error foreign

/-- The object behind a descriptor. -/
def fetch (d : LayerDesc) : Except ReadError LayerObj :=
  match env.objectKey d with
  | .error e => .error e
  | .ok key => match env.objects key with
      | none => .error (.missing d.name)
      | some o => .ok o

/-- One block of one layer, from cache or one range read. -/
def block (d : LayerDesc) (row : LayerBlock) : ReadM StoredBlock := do
  let rd ← get
  let (hit, blocks) := rd.blocks.get d.name row.offset
  set { rd with blocks := blocks }
  match hit with
  | some b => pure b
  | none =>
    let o ← liftExcept (env.fetch d)
    match o.blockAt row.offset row.len with
    | none => throw (.layer d.name .corrupt)
    | some b =>
      modify fun rd => { rd with blocks := rd.blocks.put d.name row.offset b }
      pure b
where
  liftExcept {α : Type} : Except ReadError α → ReadM α
    | .ok a => pure a
    | .error e => throw e

/-- The footer of one layer, from cache or from the object, whose bounds
must be those of its name. -/
def footer (d : LayerDesc) : ReadM LayerFooter := do
  let rd ← get
  match rd.footers.lookup d.name with
  | some f => pure f
  | none =>
    let o ← block.liftExcept (env.fetch d)
    let f := o.footer
    if o.size ≠ d.size then throw (.layer d.name .corrupt)
    else if f.kind ≠ d.kind ∨ f.minKey ≠ d.minKey ∨ f.maxKey ≠ d.maxKey ∨ f.minLsn ≠ d.minLsn
        ∨ f.maxLsn ≠ d.maxLsn then throw (.mismatched d.name)
    else do
      modify fun rd => { rd with footers := (d.name, f) :: rd.footers }
      pure f

/-- The key's page among the located blocks of an image. -/
def pageIn (d : LayerDesc) (key : LayerKey) : List LayerBlock → ReadM (Option (List UInt8))
  | [] => pure none
  | row :: rows => do
      let b ← env.block d row
      match decodeImageBlock b row with
      | .error e => throw (.layer d.name e)
      | .ok es =>
        match es.find? fun e => e.key = key with
        | some e => pure (some e.page)
        | none => pageIn d key rows

/-- The base: the first of the images that holds the key. -/
def baseIn (key : LayerKey) : List LayerDesc → ReadM (Option (List UInt8 × Lsn))
  | [] => pure none
  | d :: ds => do
      let f ← env.footer d
      if f.mayContain env.crc key then
        match ← env.pageIn d key (f.locate key) with
        | some page => pure (some (page, d.minLsn))
        | none => baseIn key ds
      else baseIn key ds

/-- Merge the records of some located blocks of a delta. -/
def recordsIn (d : LayerDesc) (key : LayerKey) (floor ceil : Lsn) :
    List LayerBlock → OrdMap Lsn (List UInt8) → ReadM (OrdMap Lsn (List UInt8))
  | [], merged => pure merged
  | row :: rows, merged => do
      let b ← env.block d row
      match decodeDeltaBlock b row with
      | .error e => throw (.layer d.name e)
      | .ok es =>
        recordsIn d key floor ceil rows
          ((es.filter fun e => e.key = key ∧ floor < e.lsn ∧ e.lsn ≤ ceil).foldl
            (fun m e => m.insert e.lsn e.record) merged)

/-- Merge the records of the deltas. -/
def mergeIn (key : LayerKey) (floor lsn : Lsn) :
    List LayerDesc → OrdMap Lsn (List UInt8) → ReadM (OrdMap Lsn (List UInt8))
  | [], merged => pure merged
  | d :: ds, merged => do
      let f ← env.footer d
      if f.mayContain env.crc key then
        let merged ← env.recordsIn d key floor (d.clamp lsn) (f.locate key) merged
        mergeIn key floor lsn ds merged
      else mergeIn key floor lsn ds merged

def reconstruct (map : LayerMap) (mem : Memtable) (key : LayerKey) (lsn : Lsn) :
    ReadM Reconstruction := do
  let plan := map.plan key lsn
  let base ← env.baseIn key plan.images
  let floor := (base.map Prod.snd).getD 0
  let above := plan.above floor
  let merged ← env.mergeIn key floor lsn above OrdMap.empty
  let merged := (mem.recordsFor key floor lsn).foldl (fun m r => m.insert r.1 r.2) merged
  pure {
    base := base.map Prod.fst
    baseLsn := base.map Prod.snd
    records := merged.entries
    layersTouched := (if base.isSome then 1 else 0) + above.length }

end ReaderEnv

/-- Drop what is cached of layers the map does not name. -/
def LayerReader.forgetUnnamed (rd : LayerReader) (map : LayerMap) : LayerReader :=
  let named := map.layers.map LayerDesc.name
  let kept := rd.blocks.blocks.filter fun e => e.1.1 ∈ named
  { footers := rd.footers.filter fun e => e.1 ∈ named
    blocks := { rd.blocks with
      blocks := kept
      bytes := rd.blocks.bytes
        - ((rd.blocks.blocks.filter fun e => ¬ e.1.1 ∈ named).map fun e => e.2.block.row.len).sum } }

end Zou
