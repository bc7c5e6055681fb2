import Zou.Lib.Trace
import Zou.Segment

/-!
# The sequencer

Group commit for one WAL shard. An append stages its frames in the open
batch and gets a ticket; the flusher closes the batch, builds its segment,
claims a slot and hands it to the workers; a worker puts it and parks the
outcome with the lander, which resolves the tickets of the windows in chain
order.

The steps are the sections under the two locks, the send and the receive of
the channel, and the return of a put. The clock decides when a batch is
closed, so it may be closed at any time. A ticket is the number of the
append that got it. A worker that panics in the sink takes its window with
it.
-/

namespace Zou

inductive Throttle where
  | ingestBytes (lag bound : Nat)
  | ingestSecs (lag bound : Nat)
  | consolidation (shard backlog bound : Nat)
  deriving DecidableEq, Repr

inductive AppendError (ε : Type) where
  | wrongEpoch (tenant current : Nat)
  | throttled (tenant : Nat) (reason : Throttle)
  | store (source : ε)
  | poisoned
  | closed
  deriving DecidableEq, Repr

structure SequencerConfig where
  shard : Nat
  inflight : Nat
  tee : Bool
  crc32c : List UInt8 → Nat

/-- The hard cap on `inflight`. -/
def maxInflight : Nat := 64

/-- A staged batch: one entry an append, its ticket and the lsn it is acked
with. -/
structure Batch where
  frames : List LogFrame
  tickets : List (Nat × Lsn)
  deriving DecidableEq, Repr

/-- A closed batch on its way to the store. -/
structure Dispatch where
  seq : Nat
  segment : Segment
  frames : List LogFrame
  tickets : List (Nat × Lsn)
  deriving DecidableEq, Repr

inductive FlusherPoint where
  | idle
  | building (seq prevDigest : Nat) (batch : Batch)
  | closed (d : Dispatch)
  | admitted (d : Dispatch)
  | draining
  | stopped
  deriving DecidableEq, Repr

inductive WorkerPoint (ε : Type) where
  | idle
  | putting (d : Dispatch)
  | returned (d : Dispatch) (outcome : Except ε Unit)
  | gone

/-- The sequencer, its threads and the lander. The last fields record what
the tickets were resolved with, what the tee was given, how the puts came
out and where every window went, none of which the code keeps. -/
structure Sequencer (ε : Type) where
  batch : Option Batch
  epochs : OrdMap Nat Nat
  nextSeq : Nat
  prevDigest : Nat
  poisoned : Bool
  shutdown : Bool
  flusher : FlusherPoint
  queue : List Dispatch
  workers : List (WorkerPoint ε)
  nextAck : Nat
  parked : OrdMap Nat (Dispatch × Except ε Unit)
  failed : Bool
  outstanding : Nat
  tickets : Nat
  resolved : List (Nat × Except (AppendError ε) Lsn)
  published : List (Nat × List LogFrame)
  puts : List (Nat × Bool)
  windows : List Dispatch
  unsent : List Dispatch
  lost : List Dispatch

inductive SequencerStep (ε : Type) where
  | append (frames : List LogFrame) (gate : Nat → Option Throttle)
  | close
  | flush
  | receive (worker : Nat)
  | put (worker : Nat) (outcome : Except ε Unit)
  | complete (worker : Nat)
  | panic (worker : Nat)

namespace Sequencer

variable {ε : Type}

/-- `Sequencer::resume`, at a chain position. -/
def resume (cfg : SequencerConfig) (nextSeq prevDigest : Nat) : Sequencer ε where
  batch := none
  epochs := OrdMap.empty
  nextSeq := nextSeq
  prevDigest := prevDigest
  poisoned := false
  shutdown := false
  flusher := .idle
  queue := []
  workers := List.replicate cfg.inflight .idle
  nextAck := nextSeq
  parked := OrdMap.empty
  failed := false
  outstanding := 0
  tickets := 0
  resolved := []
  published := []
  puts := []
  windows := []
  unsent := []
  lost := []

/-! ## Appends -/

/-- The first frame of a writer that is behind its tenant's epoch. -/
def staleEpoch (epochs : OrdMap Nat Nat) (frames : List LogFrame) : Option (Nat × Nat) :=
  frames.findSome? fun f => (epochs.get? f.tenant).bind fun current =>
    if f.writerEpoch < current then some (f.tenant, current) else none

def raiseEpochs (epochs : OrdMap Nat Nat) (frames : List LogFrame) : OrdMap Nat Nat :=
  frames.foldl (fun m f => m.insert f.tenant
    (max ((m.get? f.tenant).getD f.writerEpoch) f.writerEpoch)) epochs

/-- An append, admitted or rejected as a whole. -/
def append (s : Sequencer ε) (frames : List LogFrame) (gate : Nat → Option Throttle) :
    Sequencer ε × Except (AppendError ε) Nat :=
  if s.shutdown then (s, .error .closed)
  else if s.poisoned then (s, .error .poisoned)
  else
    match staleEpoch s.epochs frames with
    | some (tenant, current) => (s, .error (.wrongEpoch tenant current))
    | none =>
      match frames.findSome? fun f => (gate f.tenant).map (f.tenant, ·) with
      | some (tenant, reason) => (s, .error (.throttled tenant reason))
      | none =>
        let lsn := (frames.map LogFrame.endLsn).max?.getD 0
        let batch := s.batch.getD ⟨[], []⟩
        ({ s with
          epochs := raiseEpochs s.epochs frames
          batch := some ⟨batch.frames ++ frames, batch.tickets ++ [(s.tickets, lsn)]⟩
          tickets := s.tickets + 1 }, .ok s.tickets)

/-! ## The lander -/

/-- Every ticket of a window with one error. -/
def failAll (s : Sequencer ε) (tickets : List (Nat × Lsn)) (e : AppendError ε) : Sequencer ε :=
  { s with resolved := s.resolved ++ tickets.map fun t => (t.1, .error e) }

/-- The resolution of the window that is next. -/
def ack (tee : Bool) (s : Sequencer ε) (seq : Nat) (d : Dispatch) (outcome : Except ε Unit) :
    Sequencer ε :=
  let s :=
    if s.failed then s.failAll d.tickets .poisoned
    else
      match outcome with
      | .ok () =>
        { s with
          resolved := s.resolved ++ d.tickets.map fun t => (t.1, .ok t.2)
          published := if tee then s.published ++ [(seq, d.frames)] else s.published }
      | .error e => { s.failAll d.tickets (.store e) with failed := true, poisoned := true }
  { s with nextAck := seq + 1, outstanding := s.outstanding - 1 }

/-- Resolve the contiguous prefix of what is parked. -/
def settle (tee : Bool) : (s : Sequencer ε) → (es : List (Nat × Dispatch × Except ε Unit)) →
    es.Pairwise (fun a b => a.1 < b.1) → Sequencer ε
  | s, [], h => { s with parked := ⟨[], h⟩ }
  | s, (seq, d, outcome) :: es, h =>
    if seq = s.nextAck then settle tee (s.ack tee seq d outcome) es (List.pairwise_cons.mp h).2
    else { s with parked := ⟨(seq, d, outcome) :: es, h⟩ }

/-- `Lander::complete`. -/
def land (tee : Bool) (s : Sequencer ε) (d : Dispatch) (outcome : Except ε Unit) : Sequencer ε :=
  let parked := s.parked.insert d.seq (d, outcome)
  settle tee s parked.entries parked.sorted

/-! ## The threads -/

/-- The workers have all panicked. -/
def workersGone (s : Sequencer ε) : Bool :=
  s.workers.all fun w => match w with
    | .gone => true
    | _ => false

/-- The next section of the flusher, none while it waits. -/
def flush (cfg : SequencerConfig) (s : Sequencer ε) : Option (Sequencer ε) :=
  match s.flusher with
  | .idle =>
    match s.batch with
    | none => if s.shutdown then some { s with flusher := .draining } else none
    | some b =>
      if s.poisoned then some { s.failAll b.tickets .poisoned with batch := none }
      else some { s with batch := none, flusher := .building s.nextSeq s.prevDigest b }
  | .building seq prevDigest b =>
    let segment := Segment.build ⟨.landing, cfg.shard, seq, prevDigest⟩ b.frames
    let d : Dispatch := ⟨seq, segment, if cfg.tee then b.frames else [], b.tickets⟩
    some { s with
      nextSeq := seq + 1
      prevDigest := tenantsDigest cfg.crc32c segment.tenants
      flusher := .closed d
      windows := s.windows ++ [d] }
  | .closed d =>
    if s.outstanding ≥ cfg.inflight then none
    else some { s with outstanding := s.outstanding + 1, flusher := .admitted d }
  | .admitted d =>
    if s.workersGone then
      some { s.failAll d.tickets .poisoned with
        failed := true
        poisoned := true
        outstanding := s.outstanding - 1
        flusher := .idle
        unsent := s.unsent ++ [d] }
    else if s.queue.length < cfg.inflight then
      some { s with queue := s.queue ++ [d], flusher := .idle }
    else none
  | .draining => if s.outstanding = 0 then some { s with flusher := .stopped } else none
  | .stopped => none

/-- The channel's sender is dropped. -/
def senderGone (s : Sequencer ε) : Bool :=
  match s.flusher with
  | .draining => true
  | .stopped => true
  | _ => false

def next (cfg : SequencerConfig) (s : Sequencer ε) : SequencerStep ε → Option (Sequencer ε)
  | .append frames gate => if frames = [] then none else some (s.append frames gate).1
  | .close => some { s with shutdown := true }
  | .flush => s.flush cfg
  | .receive w =>
    match s.workers[w]?, s.queue with
    | some .idle, d :: queue =>
      some { s with queue := queue, workers := s.workers.set w (.putting d) }
    | some .idle, [] =>
      if s.senderGone then some { s with workers := s.workers.set w .gone } else none
    | _, _ => none
  | .put w outcome =>
    match s.workers[w]? with
    | some (.putting d) =>
      some { s with
        workers := s.workers.set w (.returned d outcome)
        puts := s.puts ++ [(d.seq, outcome.toBool)] }
    | _ => none
  | .complete w =>
    match s.workers[w]? with
    | some (.returned d outcome) =>
      some (land cfg.tee { s with workers := s.workers.set w .idle } d outcome)
    | _ => none
  | .panic w =>
    match s.workers[w]? with
    | some (.putting d) =>
      some { s with workers := s.workers.set w .gone, lost := s.lost ++ [d] }
    | _ => none

end Sequencer

end Zou
