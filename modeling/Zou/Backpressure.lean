import Zou.Sequencer

/-!
# The lag bounds

The gauge board: the ingest drivers and the consolidation runners report
their lag into it, each report in place of the last one, and the sequencer
asks it at admission. A tenant over its ingest bound is refused alone; a
WAL shard over the consolidation bound refuses everyone.

`Gauged` is a sequencer beside its board. Its steps are the appends of any
writer, the reports, and the steps of the sequencer's threads.
-/

namespace Zou

/-- The bounds, tunable per cell. -/
structure LagBounds where
  ingestBytes : Nat := 2 ^ 30
  ingestSecs : Nat := 10
  consolidationBytes : Nat := 2 * 2 ^ 30
  deriving DecidableEq, Repr

/-- One tenant's ingest lag. -/
structure IngestLag where
  bytes : Nat := 0
  secs : Nat := 0
  deriving DecidableEq, Repr

structure Backpressure where
  bounds : LagBounds
  ingest : OrdMap Nat IngestLag
  consolidation : OrdMap Nat Nat

namespace Backpressure

def new (bounds : LagBounds) : Backpressure := ⟨bounds, OrdMap.empty, OrdMap.empty⟩

def reportIngest (b : Backpressure) (tenant : Nat) (lag : IngestLag) : Backpressure :=
  if lag = {} then { b with ingest := b.ingest.remove tenant }
  else { b with ingest := b.ingest.insert tenant lag }

def reportConsolidation (b : Backpressure) (shard backlog : Nat) : Backpressure :=
  if backlog = 0 then { b with consolidation := b.consolidation.remove shard }
  else { b with consolidation := b.consolidation.insert shard backlog }

/-- `max_by_key`: the last of the largest. -/
def deepest (best : Option (Nat × Nat)) (e : Nat × Nat) : Option (Nat × Nat) :=
  match best with
  | none => some e
  | some m => if m.2 ≤ e.2 then some e else some m

def worstConsolidation (b : Backpressure) : Option (Nat × Nat) :=
  b.consolidation.entries.foldl deepest none

/-- The admission decision for one tenant's append. -/
def admission (b : Backpressure) (tenant : Nat) : Except Throttle Unit :=
  let cell : Except Throttle Unit :=
    match b.worstConsolidation.filter fun e => b.bounds.consolidationBytes < e.2 with
    | some (shard, backlog) =>
      .error (.consolidation shard backlog b.bounds.consolidationBytes)
    | none => .ok ()
  match b.ingest.get? tenant with
  | none => cell
  | some lag =>
    if b.bounds.ingestBytes < lag.bytes then
      .error (.ingestBytes lag.bytes b.bounds.ingestBytes)
    else if b.bounds.ingestSecs < lag.secs then
      .error (.ingestSecs lag.secs b.bounds.ingestSecs)
    else cell

/-- The refusals the sequencer meets, none where it has no board. -/
def gate : Option Backpressure → Nat → Option Throttle
  | none, _ => none
  | some b, tenant =>
    match b.admission tenant with
    | .ok () => none
    | .error reason => some reason

end Backpressure

/-- A sequencer and the board it asks. -/
structure Gauged (ε : Type) where
  sequencer : Sequencer ε
  board : Option Backpressure

inductive GaugedStep (ε : Type) where
  | append (frames : List LogFrame)
  | reportIngest (tenant : Nat) (lag : IngestLag)
  | reportConsolidation (shard backlog : Nat)
  | thread (l : SequencerStep ε)

namespace Gauged

variable {ε : Type}

def start (cfg : SequencerConfig) (nextSeq prevDigest : Nat) (board : Option Backpressure) :
    Gauged ε :=
  ⟨Sequencer.resume cfg nextSeq prevDigest, board⟩

/-- `Sequencer::append`, against the board. -/
def append (g : Gauged ε) (frames : List LogFrame) : Gauged ε × Except (AppendError ε) Nat :=
  let (sequencer, ticket) := g.sequencer.append frames (Backpressure.gate g.board)
  ({ g with sequencer := sequencer }, ticket)

def next (cfg : SequencerConfig) (g : Gauged ε) : GaugedStep ε → Option (Gauged ε)
  | .append frames => if frames = [] then none else some (g.append frames).1
  | .reportIngest tenant lag => some { g with board := g.board.map (·.reportIngest tenant lag) }
  | .reportConsolidation shard backlog =>
    some { g with board := g.board.map (·.reportConsolidation shard backlog) }
  | .thread (.append _ _) => none
  | .thread l => (g.sequencer.next cfg l).map fun sequencer => { g with sequencer := sequencer }

end Gauged

end Zou
