import Zou.Flush

/-!
# The page server's threads

The driver applies frames, flushes and dispatches reads; the readers it
dispatches to reload the map when a layer is missing; compaction commits
next to both. The steps here are the loads and the commits of the store
and the swaps of the published map: a flush is the put of the layer, the
commit that lists it, the load of the manifest and the swap, with nothing
else of the driver in between, and a reader's reload is a load and, some
time later, a swap.

An object that gc has deleted stays in the store here with its name in
`collected`: a read that plans against it misses, which is what makes a
reader reload, and what a map's layers hold does not change by it.
-/

namespace Zou

open Store

/-- Where the driver is in a flush. -/
inductive FlushPoint where
  | idle
  | staged (entry : LayerEntry) (entries : List DeltaEntry)
  | listed
  | loaded (map : LayerMap)

namespace FlushPoint

/-- The records that are drained and not listed yet. -/
def pending : FlushPoint → List DeltaEntry
  | .staged _ entries => entries
  | _ => []

end FlushPoint

/-- A read on its way to a reader, with every record that was parsed when
it was dispatched, which the code does not keep. -/
structure Job where
  keys : List LayerKey
  map : LayerMap
  mem : Memtable
  at_ : Lsn
  log : List WalRecord

/-- The server, its readers' jobs and the maps they have loaded and not yet
published. The code keeps neither the records that flushes have listed nor,
next to a map, how many of them were listed when it was loaded. -/
structure Serving where
  server : PageServer
  point : FlushPoint
  jobs : List Job
  reloads : List (LayerMap × Nat)
  collected : List LayerName
  flushed : List DeltaEntry
  reflected : Nat

inductive ServeStep where
  | apply (frames : List Frame2)
  | flush (acks : List Store.Ack)
  | publish (acks : List Store.Ack)
  | load (acks : List Store.Ack)
  | swap
  | dispatch (keys : List LayerKey) (pooled : Bool)
  | reply (job : Nat)
  | reload (job : Nat) (acks : List Store.Ack)
  | reswap (reload : Nat)
  | stage (o : LayerObj)
  | commit (retire : List LayerName) (add : List LayerEntry) (covers : Option Nat)
      (horizon : Option Lsn)
  | collect (name : LayerName)

/-- A compaction's put of an output, adopted when its name is taken. -/
def stageOutput (tenant : String) (shard : Nat) (objs : List (ShardKey × ShardObj))
    (o : LayerObj) : List (ShardKey × ShardObj) :=
  match get objs (.layer tenant shard o.name) with
  | none => (.layer tenant shard o.name, .layer o) :: objs
  | some _ => objs

/-- The manifest of a shard, or the one a first commit starts from. -/
def manifestOf (shard : Nat) (objs : List (ShardKey × ShardObj)) : PageShardManifest :=
  match get objs (.manifest shard) with
  | some (.shard m) => m
  | _ => PageShardManifest.new shard

/-- A compaction's commit. -/
def commitSwap (shard : Nat) (objs : List (ShardKey × ShardObj)) (retire : List LayerName)
    (add : List LayerEntry) (covers : Option Nat) (horizon : Option Lsn) :
    List (ShardKey × ShardObj) :=
  (.manifest shard, .shard ((manifestOf shard objs).swapLayers retire add covers horizon)) :: objs

namespace Serving

def shard (s : Serving) : Nat := s.server.ingest.cfg.shard

/-- The position a read dispatched now is served at. -/
def readAt (s : Serving) : Lsn :=
  if s.server.ingest.applied = 0 then u64Max else s.server.ingest.applied

/-- An error in a poll: ingest stops for good, reads go on. -/
def freeze (s : Serving) : Serving :=
  { s with server := { s.server with frozen := true }, point := .idle }

variable (codec : LayerCodec) (tenant : String) (crc32c : List UInt8 → Nat)

/-- `flush` up to the put of the layer. -/
def flush (s : Serving) (acks : List Store.Ack) : Serving :=
  if s.server.ingest.mem.isEmpty then s else
  let (entries, mem) := s.server.ingest.mem.drainSorted
  let server := { s.server with ingest := { s.server.ingest with mem := mem } }
  match ShardIngest.putDelta codec tenant s.shard entries ⟨s.server.objs, acks⟩ with
  | (.error _, w) => freeze { s with server := { server with objs := w.objs } }
  | (.ok entry, w) =>
    { s with server := { server with objs := w.objs }, point := .staged entry entries }

/-- The commit that lists the layer. -/
def publish (s : Serving) (entry : LayerEntry) (entries : List DeltaEntry) (acks : List Store.Ack) :
    Serving :=
  match PageShardManifest.publish s.shard entry s.server.ingest.applied ⟨s.server.objs, acks⟩ with
  | (.error _, w) => freeze { s with server := { s.server with objs := w.objs } }
  | (.ok _, w) =>
    { s with
      server := { s.server with objs := w.objs }
      point := .listed
      flushed := s.flushed ++ entries }

/-- The driver's load of the manifest after its flush. -/
def load (s : Serving) (acks : List Store.Ack) : Serving :=
  match PageServer.reloadMap s.shard ⟨s.server.objs, acks⟩ with
  | (.error _, _) => freeze s
  | (.ok map, _) => { s with point := .loaded map }

/-- A read with the published map and the records above it: a copy of its
keys' for the pool, the whole table when the driver serves it. -/
def dispatch (s : Serving) (keys : List LayerKey) (pooled : Bool) : Serving :=
  let mem := s.server.ingest.mem
  { s with
    jobs := s.jobs ++ [⟨keys, s.server.map, if pooled then mem.subset keys s.readAt else mem,
      s.readAt, s.server.log⟩] }

/-- The load of a reader whose map names a layer that is gone; a failed one
publishes nothing. -/
def reload (s : Serving) (job : Nat) (acks : List Store.Ack) : Option Serving :=
  match s.jobs[job]? with
  | none => none
  | some j =>
    if j.map.layers.any (fun d => decide (d.name ∈ s.collected)) then
      match PageServer.reloadMap s.shard ⟨s.server.objs, acks⟩ with
      | (.error _, _) => some s
      | (.ok map, _) => some { s with reloads := s.reloads ++ [(map, s.flushed.length)] }
    else none

/-- A reader's swap of what it loaded. -/
def reswap (s : Serving) (reload : Nat) : Option Serving :=
  s.reloads[reload]?.map fun (map, listed) =>
    { s with
      server := { s.server with map := map }
      reloads := s.reloads.eraseIdx reload
      reflected := listed }

def next (s : Serving) (l : ServeStep) : Option Serving :=
  match l, s.point with
  | .apply frames, .idle =>
    if s.server.frozen then none else some { s with server := s.server.apply crc32c frames }
  | .flush acks, .idle => if s.server.frozen then none else some (s.flush codec tenant acks)
  | .publish acks, .staged entry entries => some (s.publish entry entries acks)
  | .load acks, .listed => some (s.load acks)
  | .swap, .loaded map =>
    some { s with
      server := { s.server with map := map }, point := .idle, reflected := s.flushed.length }
  | .dispatch keys pooled, .idle => some (s.dispatch keys pooled)
  | .reply job, _ => some { s with jobs := s.jobs.eraseIdx job }
  | .reload job acks, _ => s.reload job acks
  | .reswap reload, _ => s.reswap reload
  | .stage o, _ =>
    some { s with server := { s.server with objs := stageOutput tenant s.shard s.server.objs o } }
  | .commit retire add covers horizon, _ =>
    some { s with server := { s.server with
      objs := commitSwap s.shard s.server.objs retire add covers horizon } }
  | .collect name, _ =>
    if (manifestOf s.shard s.server.objs).layers.any (·.name = name) then none
    else some { s with collected := name :: s.collected }
  | _, _ => none

end Serving

end Zou
