import Zou.Memtable
import Zou.Shards
import Zou.WalScan

/-!
# Ingest

One `ShardIngest` owns one page shard of one tenant. It reassembles frames
into the contiguous WAL byte stream, walks complete records and indexes
each under every page key its block references put on this shard, and
under the relsize keys of the forks it says something about. The age
clock of the memtable is left out, nothing modelled reads it.
-/

namespace Zou

structure IngestConfig where
  tenant : Nat
  shard : Nat
  shardCount : Nat
  deriving DecidableEq, Repr

/-- The part of a frame ingest reads. -/
structure Frame2 where
  tenant : Nat
  startLsn : Nat
  payload : List UInt8
  deriving DecidableEq, Repr

def Frame2.endLsn (f : Frame2) : Nat := f.startLsn + f.payload.length

inductive IngestError where
  | gap (have_ frameStart : Nat)
  | wal (e : WalWindow.WalError)
  | index (c : Corrupt)
  deriving DecidableEq, Repr

/-- What the WAL said about the length of a fork. -/
inductive SizeRec where
  | grow (n : Nat)
  | set (n : Nat)
  deriving DecidableEq, Repr

def SizeRec.encode : SizeRec → List UInt8
  | .grow n => 0 :: toLe32 n
  | .set n => 1 :: toLe32 n

structure ShardIngest where
  cfg : IngestConfig
  mem : Memtable
  applied : Nat
  bufBase : Nat
  buf : List UInt8

namespace ShardIngest

def new (cfg : IngestConfig) (start : Nat) : ShardIngest := ⟨cfg, Memtable.new, start, start, []⟩

/-- End of the contiguous stream received so far. -/
def seen (s : ShardIngest) : Nat := s.bufBase + s.buf.length

/-! ## Indexing -/

section Index

variable (crc32c : List UInt8 → Nat) (cfg : IngestConfig)

/-- Write one relsize record, if its key lands on this shard. -/
def insertSize (mem : Memtable) (lsn : Nat) (key : LayerKey) (rec : SizeRec) : Memtable :=
  if shardOf crc32c key cfg.shardCount = cfg.shard then mem.insert key lsn rec.encode else mem

/-- One block reference: its page key, if the stripe is ours. -/
def insertRef (record : WalRecord) (mem : Memtable) (r : BlockRef) : Memtable :=
  if pageShard crc32c r.rel r.blk cfg.shardCount = cfg.shard then
    mem.insert (LayerKey.page r.spc r.db r.rel r.fork r.blk) record.lsn record.bytes
  else mem

/-- How far each fork reaches by these references, by relsize key. -/
def grew (refs : List BlockRef) : OrdMap LayerKey Nat :=
  refs.foldl (fun m r =>
    let key := LayerKey.relsize r.spc r.db r.rel r.fork
    let end_ := min (r.blk + 1) u32Max
    m.insert key (max ((m.get? key).getD 0) end_)) OrdMap.empty

/-- Truncates that cut the main fork, by relsize key. -/
def cuts (truncs : List (RelTag × Nat)) : List (LayerKey × Nat) :=
  (truncs.filter fun t => t.2 ≠ u32Max).map fun t =>
    (LayerKey.relsize t.1.spc t.1.db t.1.rel 0, t.2)

/-- `index_record`: the pages first, then the floors, then the cuts. -/
def indexRecord (mem : Memtable) (record : WalRecord) : Except Corrupt Memtable :=
  record.refsAndTruncs.map fun (refs, truncs) =>
    let mem := refs.foldl (insertRef crc32c cfg record) mem
    let mem := (grew refs).entries.foldl
      (fun mem e => insertSize crc32c cfg mem record.lsn e.1 (.grow e.2)) mem
    (cuts truncs).foldl (fun mem e => insertSize crc32c cfg mem record.lsn e.1 (.set e.2)) mem

/-- Index the records in order, keeping what went in when one cannot be
read. -/
def indexAll (mem : Memtable) : List WalRecord → Memtable × Option Corrupt
  | [] => (mem, none)
  | r :: rs =>
    match indexRecord crc32c cfg mem r with
    | .error c => (mem, some c)
    | .ok mem => indexAll mem rs

/-! ### What a record writes -/

/-- The keys a record says something about: the pages it references, the
lengths of their forks and the lengths it cuts. -/
def keys (record : WalRecord) : List LayerKey :=
  match record.refsAndTruncs with
  | .error _ => []
  | .ok (refs, truncs) =>
    refs.map (fun r : BlockRef => LayerKey.page r.spc r.db r.rel r.fork r.blk)
      ++ refs.map (fun r : BlockRef => LayerKey.relsize r.spc r.db r.rel r.fork)
      ++ (cuts truncs).map Prod.fst

/-- The entries of a record, those of other shards left out. -/
def writes (record : WalRecord) : List DeltaEntry :=
  match record.refsAndTruncs with
  | .error _ => []
  | .ok (refs, truncs) =>
    (refs.map (fun r : BlockRef => DeltaEntry.mk (LayerKey.page r.spc r.db r.rel r.fork r.blk)
          record.lsn record.bytes)
      ++ (grew refs).entries.map (fun e => DeltaEntry.mk e.1 record.lsn (SizeRec.grow e.2).encode)
      ++ (cuts truncs).map (fun e => DeltaEntry.mk e.1 record.lsn (SizeRec.set e.2).encode)).filter
    fun w => shardOf crc32c w.key cfg.shardCount = cfg.shard

variable {crc32c : List UInt8 → Nat} {cfg : IngestConfig} {record : WalRecord}

theorem indexRecord_eq {mem mem' : Memtable} (h : indexRecord crc32c cfg mem record = .ok mem') :
    mem' = mem.insertAll (writes crc32c cfg record) := by
  unfold indexRecord at h
  unfold writes
  cases hrefs : record.refsAndTruncs with
  | error c =>
    rw [hrefs] at h
    cases h
  | ok out =>
    rw [hrefs] at h
    cases h
    simp only [Memtable.insertAll, List.foldl_filter, List.foldl_append, List.foldl_map,
      decide_eq_true_eq]
    rfl

theorem mem_grew {refs : List BlockRef} {key : LayerKey} : (∃ n, (key, n) ∈ (grew refs).entries)
      ↔ key ∈ refs.map fun r : BlockRef => LayerKey.relsize r.spc r.db r.rel r.fork := by
  have main : ∀ (refs : List BlockRef) (m : OrdMap LayerKey Nat),
      (∃ n, (key, n) ∈ (refs.foldl (fun m r =>
          let key := LayerKey.relsize r.spc r.db r.rel r.fork
          let end_ := min (r.blk + 1) u32Max
          m.insert key (max ((m.get? key).getD 0) end_)) m).entries)
        ↔ (∃ n, (key, n) ∈ m.entries)
          ∨ key ∈ refs.map fun r : BlockRef => LayerKey.relsize r.spc r.db r.rel r.fork := by
    intro refs
    induction refs with
    | nil => simp
    | cons r refs ih =>
      intro m
      rw [List.foldl_cons, ih, List.map_cons, List.mem_cons]
      simp only [OrdMap.mem_insert, Prod.mk.injEq]
      by_cases hkey : key = LayerKey.relsize r.spc r.db r.rel r.fork
      · simp [hkey]
      · simp [hkey]
  rw [grew, main]
  simp [OrdMap.empty]

/-- What a record writes, it writes under its keys and at its lsn; a page
gets the record itself. -/
theorem mem_writes {w : DeltaEntry} (h : w ∈ writes crc32c cfg record) :
    w.lsn = record.lsn ∧ w.key ∈ keys record ∧ shardOf crc32c w.key cfg.shardCount = cfg.shard
      ∧ (w.key.kind = 0 → w.record = record.bytes) := by
  unfold writes at h
  unfold keys
  split at h
  · cases h
  · rename_i refs truncs hrefs
    rw [List.mem_filter, decide_eq_true_eq] at h
    obtain ⟨h, hshard⟩ := h
    rcases List.mem_append.mp h with h | h
    · rcases List.mem_append.mp h with h | h
      · obtain ⟨r, hr, rfl⟩ := List.mem_map.mp h
        refine ⟨rfl, ?_, hshard, fun _ => rfl⟩
        simp only [List.mem_append, List.mem_map]
        exact .inl (.inl ⟨r, hr, rfl⟩)
      · obtain ⟨⟨key, n⟩, hmem, rfl⟩ := List.mem_map.mp h
        have hkey := mem_grew.mp ⟨n, hmem⟩
        refine ⟨rfl, List.mem_append_left _ (List.mem_append_right _ hkey), hshard, ?_⟩
        obtain ⟨r, -, rfl⟩ := List.mem_map.mp hkey
        exact fun h => absurd h Nat.one_ne_zero
    · obtain ⟨e, hmem, rfl⟩ := List.mem_map.mp h
      refine ⟨rfl, List.mem_append_right _ (List.mem_map.mpr ⟨e, hmem, rfl⟩), hshard, ?_⟩
      obtain ⟨t, -, rfl⟩ := List.mem_map.mp hmem
      exact fun h => absurd h Nat.one_ne_zero

theorem writes_of_key {key : LayerKey} (h : key ∈ keys record)
    (hshard : shardOf crc32c key cfg.shardCount = cfg.shard) :
    ∃ w ∈ writes crc32c cfg record, w.key = key ∧ w.lsn = record.lsn := by
  unfold keys at h
  unfold writes
  split at h
  · cases h
  · rename_i refs truncs hrefs
    simp only [List.mem_filter, List.mem_append, decide_eq_true_eq]
    rcases List.mem_append.mp h with h | h
    · rcases List.mem_append.mp h with h | h
      · obtain ⟨r, hr, rfl⟩ := List.mem_map.mp h
        exact ⟨_, ⟨.inl (.inl (List.mem_map.mpr ⟨r, hr, rfl⟩)), hshard⟩, rfl, rfl⟩
      · obtain ⟨n, hn⟩ := mem_grew.mpr h
        exact ⟨_, ⟨.inl (.inr (List.mem_map.mpr ⟨_, hn, rfl⟩)), hshard⟩, rfl, rfl⟩
    · obtain ⟨e, he, rfl⟩ := List.mem_map.mp h
      exact ⟨_, ⟨.inr (List.mem_map.mpr ⟨e, he, rfl⟩), hshard⟩, rfl, rfl⟩

end Index

/-! ## Frames -/

/-- Append what a frame adds to the buffer. -/
def extend (s : ShardIngest) (f : Frame2) : Except IngestError ShardIngest :=
  if f.tenant ≠ s.cfg.tenant then .ok s
  else if f.endLsn ≤ s.seen then .ok s
  else if f.startLsn > s.seen then .error (.gap s.seen f.startLsn)
  else .ok { s with buf := s.buf ++ f.payload.drop (s.seen - f.startLsn) }

/-- The frames of one call, in order; a gap keeps what came before it. -/
def extendAll (s : ShardIngest) : List Frame2 → ShardIngest × Option IngestError
  | [] => (s, none)
  | f :: fs =>
    match s.extend f with
    | .error e => (s, some e)
    | .ok s => extendAll s fs

variable (crc32c : List UInt8 → Nat)

/-- Walk the complete records of the buffer, index them and drop the
consumed bytes. The window takes the buffer, so a failure leaves it
empty. -/
def parseAvailable (s : ShardIngest) : ShardIngest × Option IngestError :=
  if s.buf.isEmpty then (s, none) else
  match WalWindow.readRecords ⟨s.bufBase, s.buf⟩ s.applied none with
  | .error e => ({ s with buf := [] }, some (.wal e))
  | .ok (records, resume) =>
    match indexAll crc32c s.cfg s.mem records with
    | (mem, some c) => ({ s with mem := mem, buf := [] }, some (.index c))
    | (mem, none) =>
      ({ s with
        mem := mem
        applied := resume
        buf := s.buf.drop (min (resume - s.bufBase) s.buf.length)
        bufBase := resume }, none)

/-- `apply_frames`: the state after the call and its error, if any. -/
def applyFrames (s : ShardIngest) (frames : List Frame2) : ShardIngest × Option IngestError :=
  match s.extendAll frames with
  | (s, some e) => (s, some e)
  | (s, none) => s.parseAvailable crc32c

/-- A sequence of calls, up to the first that fails. -/
def applyCalls (s : ShardIngest) : List (List Frame2) → ShardIngest × Option IngestError
  | [] => (s, none)
  | call :: calls =>
    match s.applyFrames crc32c call with
    | (s, some e) => (s, some e)
    | (s, none) => applyCalls s calls

end ShardIngest

end Zou
