import Zou.WalChain

/-!
# Runs over one shard

Nodes and readers over the store of one shard. A node takes the shard over
and then runs a sequencer on what it was handed, or starts one on a chain
that nobody has taken over; each put worker of the sequencer is a client of
its own. A reader walks the chain from its cursor, one segment at a time,
and keeps what it was given.

Any node may stop anywhere, and the puts it launched may still land. Folds
of the chain are left out: nothing is consolidated, and a walk starts at the
first seq or where another one stands.
-/

namespace Zou.Wal

open Trace Client

structure WalConfig where
  mode : DurabilityMode
  sequencer : SequencerConfig

inductive Node where
  | takingOver (p : Chain Takeover)
  | writing (sealedSeq : Nat) (sq : Sequencer CasError) (puts : Nat → Media Unit)

/-- A walk. `path` is what the sink was given. -/
structure Reader where
  cursor : ChainCursor
  path : List Segment
  p : Chain (Option Segment)

def Reader.new : Reader := ⟨⟨1, 0⟩, [], .done none⟩

structure ShardRuns where
  store : Store
  nodes : List Node
  readers : Nat → Reader

inductive RunStep where
  /-- A node that starts a chain, and one that takes it over. -/
  | start
  | takeOver (fuel : Nat)
  | advance (i : Nat) (wire : Wire)
  | resume (i : Nat)
  | sequencer (i : Nat) (l : SequencerStep CasError)
  | work (i w : Nat) (wire : Wire)
  | returned (i w : Nat)
  | land (n : Nat) (wire : Wire)
  | walk (r : Nat)
  | read (r : Nat) (wire : Wire)
  | deliver (r : Nat)
  /-- Reader `r'` goes on where `r` stands. -/
  | hand (r r' : Nat)

namespace ShardRuns

def empty : ShardRuns := ⟨.empty, [], fun _ => .new⟩

def setNode (s : ShardRuns) (i : Nat) (n : Node) : ShardRuns :=
  { s with nodes := s.nodes.set i n }

def setReader (s : ShardRuns) (r : Nat) (x : Reader) : ShardRuns :=
  { s with readers := Function.update s.readers r x }

variable (cfg : WalConfig)

/-- A worker that has a window puts it. -/
def putsOf (sealedSeq : Nat) (sq : Sequencer CasError) (puts : Nat → Media Unit) :
    SequencerStep CasError → Nat → Media Unit
  | .receive w =>
    match sq.workers[w]? with
    | some (.putting d) => Function.update puts w (sinkPut cfg.mode sealedSeq d.seq d.segment)
    | _ => puts
  | _ => puts

/-- What a put worker got from its sink. -/
def outcomeOf : Media Unit → Option (Except CasError Unit)
  | .done () => some (.ok ())
  | .fail e => some (.error e)
  | .ask _ _ => none

/-- The steps of a sequencer that are its own. -/
def ownStep : SequencerStep CasError → Bool
  | .put _ _ => false
  | _ => true

def next (s : ShardRuns) : RunStep → Option ShardRuns
  | .start => some { s with
      nodes := s.nodes ++ [.writing 0 (.resume cfg.sequencer 1 0) fun _ => .done ()] }
  | .takeOver fuel => some { s with
      nodes := s.nodes ++
        [.takingOver (takeOver cfg.mode cfg.sequencer.shard cfg.sequencer.crc32c fuel)] }
  | .advance i wire => match s.nodes[i]? with
      | some (.takingOver p) => (p.advance Store.exec s.store wire).map fun x =>
        { s.setNode i (.takingOver x.1) with store := x.2 }
      | _ => none
  | .resume i => match s.nodes[i]? with
      | some (.takingOver (.done t)) => some (s.setNode i (.writing t.sealedSeq
          (.resume cfg.sequencer t.nextSeq t.prevDigest) fun _ => .done ()))
      | _ => none
  | .sequencer i l => match s.nodes[i]? with
      | some (.writing q sq puts) =>
        if ownStep l then
          (sq.next cfg.sequencer l).map fun sq' =>
            s.setNode i (.writing q sq' (putsOf cfg q sq' puts l))
        else none
      | _ => none
  | .work i w wire => match s.nodes[i]? with
      | some (.writing q sq puts) => match sq.workers[w]? with
          | some (.putting _) => ((puts w).advance Store.exec s.store wire).map fun x =>
            { s.setNode i (.writing q sq (Function.update puts w x.1)) with store := x.2 }
          | _ => none
      | _ => none
  | .returned i w => match s.nodes[i]? with
      | some (.writing q sq puts) => match outcomeOf (puts w) with
          | some outcome => (sq.next cfg.sequencer (.put w outcome)).map fun sq' =>
            s.setNode i (.writing q sq' puts)
          | none => none
      | _ => none
  | .land n wire => (s.store.land n wire).map fun store => { s with store := store }
  | .walk r => some (s.setReader r { s.readers r with
      p := walkNext cfg.mode cfg.sequencer.shard (s.readers r).cursor })
  | .read r wire => ((s.readers r).p.advance Store.exec s.store wire).map fun x =>
    { s.setReader r { s.readers r with p := x.1 } with store := x.2 }
  | .deliver r => match (s.readers r).p with
      | .done (some x) => some (s.setReader r
          ⟨(s.readers r).cursor.next cfg.sequencer.crc32c x, (s.readers r).path ++ [x], .done none⟩)
      | _ => none
  | .hand r r' => some (s.setReader r' { s.readers r with p := .done none })

end ShardRuns

/-! ## Owners and lineages -/

/-- The owner of a seq: what `fetch` returns of the objects there. -/
def Store.owner (mode : DurabilityMode) (g : Store) (seq : Nat) : Option Segment :=
  match mode with
  | .standard => g.slots seq .standard
  | .expressDual => fetchOf (g.slots seq .az1) (g.slots seq .az2) (g.slots seq .standard)

/-- A seal owns the seq. -/
def Store.Sealed (mode : DurabilityMode) (g : Store) (seq : Nat) : Prop :=
  ((g.owner mode seq).any (·.header.kind = .seal)) = true

instance (mode : DurabilityMode) (g : Store) (seq : Nat) : Decidable (g.Sealed mode seq) :=
  inferInstanceAs (Decidable (_ = true))

/-- The windows a writer has built, and the seal it writes behind. -/
structure Lineage where
  sealedSeq : Nat
  windows : List Segment
  deriving DecidableEq

def Node.lineage : Node → Option Lineage
  | .writing q sq _ => some ⟨q, sq.windows.map Dispatch.segment⟩
  | .takingOver _ => none

def ShardRuns.lineages (s : ShardRuns) : List (Option Lineage) := s.nodes.map Node.lineage

/-- The segment is a landing of a writer that a seal below its seq has
fenced. -/
def Litter (mode : DurabilityMode) (g : Store) (ls : List (Option Lineage)) (seq : Nat)
    (x : Segment) : Prop :=
  x.header.kind = .landing ∧ ∃ o ∈ ls, ∃ l ∈ o, x ∈ l.windows ∧
    ∃ f, f < seq ∧ l.sealedSeq < f ∧ g.Sealed mode f

instance (mode : DurabilityMode) (g : Store) (ls : List (Option Lineage)) (seq : Nat)
    (x : Segment) : Decidable (Litter mode g ls seq x) :=
  inferInstanceAs (Decidable (_ ∧ _))

end Zou.Wal
