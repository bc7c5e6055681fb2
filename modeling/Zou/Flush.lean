import Zou.Lib.Store
import Zou.Lib.Trace
import Zou.Ingest
import Zou.Layer
import Zou.LayerMap

/-!
# Flush, and the driver of the page server

A flush drains the memtable into one delta layer, puts the object if its
name is free, adopts it if it is not, and lists it in the shard manifest.
The driver reloads its map after a flush that wrote a layer and freezes
ingest on any error; what is covered is served from the map and the
memtable, frozen or not.

A commit of the manifest that loses the race starts over, so it is one
load and one put here. Which flush is due and what a read waits for are
left to the schedule.
-/

namespace Zou

open Store

inductive ShardKey where
  | layer (tenant : String) (shard : Nat) (name : LayerName)
  | manifest (shard : Nat)
  deriving DecidableEq, Repr

inductive ShardObj where
  | layer (o : LayerObj)
  | shard (m : PageShardManifest)
  deriving DecidableEq, Repr

inductive FlushError where
  | build (e : LayerBuildError)
  | exists_
  | store
  | shard (e : PageShardError)
  | map
  deriving DecidableEq, Repr

abbrev ShardProg := Prog ShardKey ShardObj FlushError

/-- How layers are encoded: the length of a stored block, the crc of the
filter, and the block target, which is at most the one blocks are read
back under. -/
structure LayerCodec where
  stored : BlockBody → Nat
  crc : Nat → List UInt8 → Nat
  target : Nat
  stored_pos : ∀ b, 0 < stored b
  target_le : target ≤ layerBlockTarget

def LayerObj.name (o : LayerObj) : LayerName := (LayerDesc.fromFooter o.footer o.size).name

/-! ## The manifest -/

namespace PageShardManifest

def load (shard : Nat) : ShardProg (Option PageShardManifest) := do
  match ← read .store fun objs => get objs (.manifest shard) with
  | none => pure none
  | some (.layer _) => Prog.throw (.shard .json)
  | some (.shard m) =>
    if m.format > pageShardFormat then Prog.throw (.shard (.formatTooNew m.format))
    else pure (some m)

/-- The descriptors of the entries. -/
def descs : List LayerEntry → Except PageShardError (List LayerDesc)
  | [] => .ok []
  | l :: ls =>
    match l.desc, descs ls with
    | .ok d, .ok ds => .ok (d :: ds)
    | .error e, _ => .error e
    | _, .error e => .error e

def layerMap (m : PageShardManifest) : Except FlushError LayerMap :=
  match descs m.layers with
  | .error e => .error (.shard e)
  | .ok ds => match LayerMap.new ds with
      | .error _ => .error .map
      | .ok map => .ok map

/-- `publish_layer`. -/
def publish (shard : Nat) (e : LayerEntry) (upto : Lsn) : ShardProg PageShardManifest := do
  let m := (← load shard).getD (PageShardManifest.new shard)
  let m := m.publishLayer e upto
  put .store (.manifest shard) (.shard m)
  pure m

end PageShardManifest

/-! ## Flush -/

/-- A put of a layer that is adopted when its name is taken. -/
def adoptLayer (tenant : String) (shard : Nat) (o : LayerObj) : ShardProg Unit := fun w =>
  match (putIfAbsent .store .exists_ (.layer tenant shard o.name) (.layer o) : ShardProg Unit) w with
  | (.error .exists_, w') => (.ok (), w')
  | out => out

namespace ShardIngest

variable (codec : LayerCodec) (tenant : String)

/-- The drained records as one object: its entry in the manifest. -/
def putDelta (shard : Nat) (entries : List DeltaEntry) : ShardProg LayerEntry := do
  match buildDelta codec.stored codec.crc entries codec.target with
  | .error e => Prog.throw (.build e)
  | .ok o =>
    adoptLayer tenant shard o
    pure ⟨o.name, o.size, none, none⟩

def flushEntries (shard : Nat) (applied : Lsn) (entries : List DeltaEntry) :
    ShardProg LayerEntry := do
  let entry ← putDelta codec tenant shard entries
  let _ ← PageShardManifest.publish shard entry applied
  pure entry

/-- `flush`: the memtable is drained before anything is put. -/
def flush (s : ShardIngest) (w : World ShardKey ShardObj) :
    (Except FlushError (Option LayerEntry) × ShardIngest) × World ShardKey ShardObj :=
  if s.mem.isEmpty then ((.ok none, s), w) else
  let (entries, mem) := s.mem.drainSorted
  match flushEntries codec tenant s.cfg.shard s.applied entries w with
  | (r, w') => ((r.map some, { s with mem := mem }), w')

/-- The records the parse of one call reads. -/
def parsed (s : ShardIngest) (frames : List Frame2) : List WalRecord :=
  match s.extendAll frames with
  | (_, some _) => []
  | (s, none) =>
    if s.buf.isEmpty then [] else
    match WalWindow.readRecords ⟨s.bufBase, s.buf⟩ s.applied none with
    | .error _ => []
    | .ok (records, _) => records

end ShardIngest

/-! ## The driver -/

/-- Whether a request can be served now. -/
def covered (lsn since seen durableSeen : Nat) (probed : Bool) : Bool :=
  if since ≠ 0 then seen ≥ since
  else if lsn = 0 then probed && decide (seen ≥ durableSeen)
  else seen ≥ lsn

/-- The store, the ingest, the published map, whether ingest is frozen, and
every record the ingest has parsed, which the code does not keep. -/
structure PageServer where
  objs : List (ShardKey × ShardObj)
  ingest : ShardIngest
  map : LayerMap
  frozen : Bool
  log : List WalRecord

inductive ServerStep where
  | apply (frames : List Frame2)
  | flush (acks : List Store.Ack)
  deriving DecidableEq, Repr

namespace PageServer

/-- Publish the manifest as the map reads plan against. -/
def reloadMap (shard : Nat) : ShardProg LayerMap := do
  match ← PageShardManifest.load shard with
  | none => Prog.throw .map
  | some m => Prog.lift m.layerMap

variable (codec : LayerCodec) (tenant : String) (crc32c : List UInt8 → Nat)

def apply (s : PageServer) (frames : List Frame2) : PageServer :=
  match s.ingest.applyFrames crc32c frames with
  | (i, some _) => { s with ingest := i, frozen := true }
  | (i, none) => { s with ingest := i, log := s.log ++ s.ingest.parsed frames }

/-- `flush_if_due`, when one is. -/
def flushIfDue (s : PageServer) (acks : List Store.Ack) : PageServer :=
  match s.ingest.flush codec tenant ⟨s.objs, acks⟩ with
  | ((.error _, i), w) => { s with objs := w.objs, ingest := i, frozen := true }
  | ((.ok none, i), w) => { s with objs := w.objs, ingest := i }
  | ((.ok (some _), i), w) =>
    match reloadMap i.cfg.shard w with
    | (.error _, w) => { s with objs := w.objs, ingest := i, frozen := true }
    | (.ok map, w) => { s with objs := w.objs, ingest := i, map := map }

/-- One step of the driver; a frozen one takes none. -/
def next (s : PageServer) (l : ServerStep) : Option PageServer :=
  if s.frozen then none else
  match l with
  | .apply frames => some (s.apply crc32c frames)
  | .flush acks => some (s.flushIfDue codec tenant acks)

end PageServer

end Zou
