import Zou.DualMedia
import Zou.Lib.Client
import Zou.Sequencer

/-!
# The chain of a shard

The objects of one WAL shard, one a seq and medium, and its manifest. What
the code does to them is written as clients: `WalMedia` puts, seals, probes,
fetches and deletes the object of a seq under the rule of its mode, and
`chain_head`, `take_over`, `sweep_stragglers`, `straggler_at` and the walk of
the chain are built from these.

`put_quorum` starts threads and waits on their channel, so the store also
has the puts that are in flight and the channels. A request is executed at
once or fails, with or without its effect. The probes of one window go out
in the order of their seqs. A loop without a bound has fuel, and a client
that has used it up is one that stopped.
-/

namespace Zou.Wal

open Client

inductive DurabilityMode where
  | standard
  | expressDual
  deriving DecidableEq, Repr

inductive CasError where
  | alreadyExists
  | conflict
  | io
  deriving DecidableEq, Repr

inductive ChainError where
  | store (e : CasError)
  | brokenLink (seq : Nat)
  | contested (attempts : Nat)
  /-- The fuel of a loop is used up. -/
  | stopped
  deriving DecidableEq, Repr

/-- The manifest, less its format, its shard and the marker of who sealed
it. -/
structure ShardManifest where
  chainEpoch : Nat
  head : Nat
  consolidatedUpto : Nat
  consolidatedDigest : Nat
  rounds : Option (Nat × Nat)
  gcRound : Nat
  deriving DecidableEq, Repr

inductive Request where
  | get (m : Medium) (seq : Nat)
  | putIfAbsent (m : Medium) (seq : Nat) (segment : Segment)
  | delete (m : Medium) (seq : Nat)
  | load
  | putIfMatch (manifest : ShardManifest) (version : Option Nat)
  | channel
  | launch (c : Nat) (m : Medium) (seq : Nat) (segment : Segment)
  | receive (c : Nat) (timed : Bool)

abbrev Request.Reply : Request → Type
  | .get _ _ => Except CasError (Option Segment)
  | .putIfAbsent _ _ _ => Except CasError Unit
  | .delete _ _ => Except CasError Unit
  | .load => Except CasError (Option (ShardManifest × Nat))
  | .putIfMatch _ _ => Except CasError Unit
  | .channel => Nat
  | .launch _ _ _ _ => Unit
  | .receive _ _ => Option (Except CasError Unit)

/-- A put whose thread has not been answered. -/
structure Launched where
  channel : Nat
  medium : Medium
  seq : Nat
  segment : Segment
  deriving DecidableEq, Repr

/-- The objects, the manifest with its version, and what the threads of
`put_quorum` are at. -/
structure Store where
  slots : Nat → Medium → Option Segment
  manifest : Option (ShardManifest × Nat)
  launched : List Launched
  channels : Nat → List (Except CasError Unit)
  nextChannel : Nat

namespace Store

def empty : Store := ⟨fun _ _ => none, none, [], fun _ => [], 0⟩

def setSlot (g : Store) (seq : Nat) (m : Medium) (x : Option Segment) : Store :=
  { g with slots := Function.update g.slots seq (Function.update (g.slots seq) m x) }

/-- `put_if_absent` of a segment's object. -/
def putIfAbsent (g : Store) (m : Medium) (seq : Nat) (x : Segment) :
    Wire → Store × Except CasError Unit
  | .dropped => (g, .error .io)
  | .answered =>
    match g.slots seq m with
    | some _ => (g, .error .alreadyExists)
    | none => (g.setSlot seq m (some x), .ok ())
  | .lost =>
    match g.slots seq m with
    | some _ => (g, .error .io)
    | none => (g.setSlot seq m (some x), .error .io)

/-- `put_if_match` of the manifest. -/
def putIfMatch (g : Store) (next : ShardManifest) (version : Option Nat) :
    Wire → Store × Except CasError Unit
  | .dropped => (g, .error .io)
  | .answered =>
    if g.manifest.map Prod.snd = version then
      ({ g with manifest := some (next, version.elim 0 (· + 1)) }, .ok ())
    else (g, .error .conflict)
  | .lost =>
    if g.manifest.map Prod.snd = version then
      ({ g with manifest := some (next, version.elim 0 (· + 1)) }, .error .io)
    else (g, .error .io)

/-- One request. A channel has nothing lost: it is waited on, or the wait
times out. -/
def exec (g : Store) : (q : Request) → Wire → Option (Store × q.Reply)
  | .get m seq, .answered => some (g, .ok (g.slots seq m))
  | .get _ _, _ => some (g, .error .io)
  | .putIfAbsent m seq x, wire => some (g.putIfAbsent m seq x wire)
  | .delete m seq, .answered => some (g.setSlot seq m none, .ok ())
  | .delete m seq, .lost => some (g.setSlot seq m none, .error .io)
  | .delete _ _, .dropped => some (g, .error .io)
  | .load, .answered => some (g, .ok g.manifest)
  | .load, _ => some (g, .error .io)
  | .putIfMatch next version, wire => some (g.putIfMatch next version wire)
  | .channel, _ => some ({ g with nextChannel := g.nextChannel + 1 }, g.nextChannel)
  | .launch c m seq x, _ => some ({ g with launched := g.launched ++ [⟨c, m, seq, x⟩] }, ())
  | .receive c _, .answered =>
    match g.channels c with
    | r :: rest => some ({ g with channels := Function.update g.channels c rest }, some r)
    | [] => none
  | .receive _ timed, _ => if timed then some (g, none) else none

/-- A put in flight reaches its medium, and its thread reports. -/
def land (g : Store) (n : Nat) (wire : Wire) : Option Store :=
  match g.launched[n]? with
  | none => none
  | some l =>
    let r := g.putIfAbsent l.medium l.seq l.segment wire
    some { r.1 with
      launched := g.launched.eraseIdx n
      channels := Function.update g.channels l.channel (g.channels l.channel ++ [r.2]) }

end Store

/-! ## The media -/

abbrev Media := Prog Request Request.Reply CasError

abbrev Chain := Prog Request Request.Reply ChainError

instance : MonadLift Media Chain := ⟨Prog.mapErr .store⟩

/-- A request whose error is the caller's. -/
def ofReply {α : Type} : Except CasError α → Media α
  | .ok a => .done a
  | .error e => .fail e

def get (m : Medium) (seq : Nat) : Media (Option Segment) :=
  Prog.request (Request.get m seq) >>= ofReply

def delete (m : Medium) (seq : Nat) : Media Unit := Prog.request (Request.delete m seq) >>= ofReply

def putIfAbsent (m : Medium) (seq : Nat) (x : Segment) : Media (Except CasError Unit) :=
  Prog.request (Request.putIfAbsent m seq x)

def newChannel : Media Nat := Prog.request Request.channel

def launch (c : Nat) (m : Medium) (seq : Nat) (x : Segment) : Media Unit :=
  Prog.request (Request.launch c m seq x)

/-- An answer of the channel, none when the wait timed out. -/
def receive (c : Nat) (timed : Bool) : Media (Option (Except CasError Unit)) :=
  Prog.request (Request.receive c timed)

/-- What the loop of `put_quorum` does until it returns. There are at most
three answers and one timeout. -/
def quorumLoop (seq : Nat) (x : Segment) (c : Nat) :
    Nat → (outstanding successes : Nat) → (hedged : Bool) → Option CasError → Media Unit
  | 0, _, _, _, firstErr => .fail (firstErr.getD .io)
  | fuel + 1, outstanding, successes, hedged, firstErr =>
    if outstanding = 0 then .fail (firstErr.getD .io)
    else do
      match ← receive c (!hedged) with
      | none => do
          launch c .standard seq x
          quorumLoop seq x c fuel (outstanding + 1) successes true firstErr
      | some (.ok ()) =>
        if 2 ≤ successes + 1 then return ()
        else quorumLoop seq x c fuel (outstanding - 1) (successes + 1) hedged firstErr
      | some (.error .alreadyExists) => .fail .alreadyExists
      | some (.error e) =>
        if hedged then
          quorumLoop seq x c fuel (outstanding - 1) successes true (firstErr.or (some e))
        else do
          launch c .standard seq x
          quorumLoop seq x c fuel outstanding successes true (firstErr.or (some e))

def putQuorum (seq : Nat) (x : Segment) : Media Unit := do
  let c ← newChannel
  launch c .az1 seq x
  launch c .az2 seq x
  quorumLoop seq x c 5 2 0 false none

/-- `WalMedia::put_segment`. -/
def putSegment (mode : DurabilityMode) (seq : Nat) (x : Segment) : Media Unit :=
  match mode with
  | .standard => putIfAbsent .standard seq x >>= ofReply
  | .expressDual => putQuorum seq x

/-- A put of a seal: whether it won the medium. -/
def sealOne (m : Medium) (seq : Nat) (x : Segment) : Media Bool := do
  match ← putIfAbsent m seq x with
  | .ok () => return true
  | .error .alreadyExists => return false
  | .error e => .fail e

/-- `WalMedia::seal`. -/
def sealSegment (mode : DurabilityMode) (seq : Nat) (x : Segment) : Media SealOutcome :=
  match mode with
  | .standard => do
      if ← sealOne .standard seq x then return .sealed
      return .occupied
  | .expressDual => do
      let a ← sealOne .az1 seq x
      let b ← sealOne .az2 seq x
      if a && b then return .sealed
      if !a && !b then return .occupied
      if ← sealOne .standard seq x then return .sealed
      return .occupied

/-- The first 28 bytes of an object are its header. -/
def present (mode : DurabilityMode) (seq : Nat) : Media Bool :=
  match mode with
  | .standard => do
      let x ← get .standard seq
      return x.isSome
  | .expressDual => do
      let a ← get .az1 seq
      let b ← get .az2 seq
      let a := a.map Segment.header
      let b := b.map Segment.header
      if a.isSome ∧ a = b then return true
      if a = none ∧ b = none then return false
      let s ← get .standard seq
      let s := s.map Segment.header
      return s.isSome ∧ (a = s ∨ b = s)

def deleteSegment (mode : DurabilityMode) (seq : Nat) : Media Unit :=
  match mode with
  | .standard => delete .standard seq
  | .expressDual => do
      delete .az1 seq
      delete .az2 seq
      delete .standard seq

def fetch (mode : DurabilityMode) (seq : Nat) : Media (Option Segment) :=
  match mode with
  | .standard => get .standard seq
  | .expressDual => do
      let a ← get .az1 seq
      let b ← get .az2 seq
      if a.isSome ∧ a = b then return a
      if a = none ∧ b = none then return none
      let s ← get .standard seq
      if s.isSome ∧ s = a then return a
      if s.isSome ∧ s = b then return b
      return none

/-! ## The head -/

section Chain

variable (mode : DurabilityMode) (shard : Nat) (crc32c : List UInt8 → Nat)

/-- `ShardManifest::load`. -/
def loadManifest : Media (Option (ShardManifest × Nat)) := Prog.request Request.load >>= ofReply

def putIfMatch (next : ShardManifest) (version : Option Nat) : Media (Except CasError Unit) :=
  Prog.request (Request.putIfMatch next version)

/-- A missing seq to bound the search, and the last one that was there. -/
def gallop : Nat → (lo step : Nat) → Chain (Nat × Nat)
  | 0, _, _ => .fail .stopped
  | fuel + 1, lo, step => do
      if ← present mode (lo + step) then gallop fuel (lo + step) (step * 2)
      else return (lo, lo + step)

/-- The boundary in `(lo, hi)`. The first argument is `hi - lo` or more. -/
def bisect : Nat → (lo hi : Nat) → Chain Nat
  | 0, lo, _ => return lo
  | n + 1, lo, hi =>
    if hi - lo > 1 then do
      let mid := lo + (hi - lo) / 2
      if ← present mode mid then bisect n mid hi else bisect n lo mid
    else return lo

def probeWindow : (len first : Nat) → Chain (List Bool)
  | 0, _ => return []
  | len + 1, first => do
      let p ← present mode first
      let ps ← probeWindow len (first + 1)
      return p :: ps

def chainHead (fuel floor : Nat) : Chain Nat := do
  if !(← present mode (floor + 1)) then return floor
  let (lo, hi) ← gallop mode fuel (floor + 1) 1
  let lo ← bisect mode (hi - lo) lo hi
  let base := max (floor + 1) (lo - maxInflight)
  let window ← probeWindow mode (lo - base + 1) base
  match window.findIdx? (!·) with
  | some i => return base + i - 1
  | none => return lo

def digestOfSegment (seq : Nat) : Chain Nat :=
  if seq = 0 then return 0
  else do
    match ← fetch mode seq with
    | none => .fail (.brokenLink seq)
    | some x => return tenantsDigest crc32c x.tenants

/-! ## Takeover -/

/-- How many probes of a window go out at once. -/
def probeWidth : Nat := 32

/-- One window of the sweep, none when the sweep is over and else the gap it
ends with. -/
def sweepWindow : List Bool → (seq gap : Nat) → Chain (Option Nat)
  | [], _, gap => return some gap
  | false :: ps, seq, gap =>
    if gap + 1 ≥ maxInflight then return none else sweepWindow ps (seq + 1) (gap + 1)
  | true :: ps, seq, _ => do
      match ← fetch mode seq with
      | none => sweepWindow ps (seq + 1) 0
      | some x =>
        if x.header.kind ≠ .landing then return none
        else do
          deleteSegment mode seq
          sweepWindow ps (seq + 1) 0

def sweepLoop : Nat → (seq gap : Nat) → Chain Unit
  | 0, _, _ => .fail .stopped
  | fuel + 1, seq, gap =>
    if gap < maxInflight then do
      let window ← probeWindow mode probeWidth (seq + 1)
      match ← sweepWindow mode window (seq + 1) gap with
      | none => return ()
      | some gap => sweepLoop fuel (seq + probeWidth) gap
    else return ()

def sweepStragglers (fuel sealedSeq : Nat) : Chain Unit := sweepLoop mode fuel sealedSeq 0

structure Takeover where
  chainEpoch : Nat
  sealedSeq : Nat
  nextSeq : Nat
  prevDigest : Nat
  deriving DecidableEq, Repr

/-- The seal at a seq. -/
def sealAt (seq prevDigest : Nat) : Segment := Segment.build ⟨.seal, shard, seq, prevDigest⟩ []

/-- The manifest a takeover swaps in. -/
def ShardManifest.taken (manifest : Option ShardManifest) (sealedSeq : Nat) : ShardManifest where
  chainEpoch := manifest.elim 0 chainEpoch + 1
  head := sealedSeq
  consolidatedUpto := manifest.elim 0 consolidatedUpto
  consolidatedDigest := manifest.elim 0 consolidatedDigest
  rounds := manifest.bind rounds
  gcRound := manifest.elim 0 gcRound

def ShardManifest.floor (manifest : Option ShardManifest) : Nat :=
  manifest.elim 0 fun m => max m.head m.consolidatedUpto

/-- The link of a seal to the head. -/
def headDigest (manifest : Option ShardManifest) (head : Nat) : Chain Nat :=
  match manifest with
  | some m =>
    if head = m.consolidatedUpto then return m.consolidatedDigest
    else digestOfSegment mode crc32c head
  | none => digestOfSegment mode crc32c head

def maxAttempts : Nat := 8

/-- The end of an attempt whose seal won: the manifest is swapped and the
stragglers are swept, or a rival was first and it is retried. -/
def claimShard (fuel : Nat) (loaded : Option (ShardManifest × Nat)) (sealedSeq : Nat)
    (x : Segment) (retry : Chain Takeover) : Chain Takeover := do
  let next := ShardManifest.taken (loaded.map Prod.fst) sealedSeq
  match ← putIfMatch next (loaded.map Prod.snd) with
  | .ok () => do
      sweepStragglers mode fuel sealedSeq
      return ⟨next.chainEpoch, sealedSeq, sealedSeq + 1, tenantsDigest crc32c x.tenants⟩
  | .error .conflict => retry
  | .error e => .fail (.store e)

def takeOverLoop (fuel : Nat) : Nat → Chain Takeover
  | 0 => .fail (.contested maxAttempts)
  | n + 1 => do
      let loaded ← loadManifest
      let manifest := loaded.map Prod.fst
      let head ← chainHead mode fuel (ShardManifest.floor manifest)
      let prevDigest ← headDigest mode crc32c manifest head
      let sealedSeq := head + 1
      let x := sealAt shard sealedSeq prevDigest
      match ← sealSegment mode sealedSeq x with
      | .occupied => takeOverLoop fuel n
      | .sealed => claimShard mode crc32c fuel loaded sealedSeq x (takeOverLoop fuel n)

def takeOver (fuel : Nat) : Chain Takeover := takeOverLoop mode shard crc32c fuel maxAttempts

/-! ## The sink of a sequencer -/

def stragglerAt (seq sealedSeq : Nat) : Chain Bool :=
  if sealedSeq = 0 then return false
  else do
    match ← fetch mode seq with
    | none => return false
    | some x =>
      if x.header.kind ≠ .landing then return false
      else do
        let loaded ← loadManifest
        return loaded.elim 0 (·.1.head) = sealedSeq

/-- `MediaSink::put_segment`. -/
def sinkPut (sealedSeq seq : Nat) (x : Segment) : Media Unit := do
  match ← (putSegment mode seq x).attempt with
  | .error .alreadyExists =>
    match ← (stragglerAt mode seq sealedSeq).attempt with
    | .ok true => do
        deleteSegment mode seq
        putSegment mode seq x
    | _ => .fail .alreadyExists
  | .error e => .fail e
  | .ok () => return ()

/-! ## The walk -/

structure ChainCursor where
  seq : Nat
  prevDigest : Nat
  deriving DecidableEq, Repr

/-- The walk up to the next call of the sink, none where it ends. -/
def walkNext (cursor : ChainCursor) : Chain (Option Segment) := do
  match ← fetch mode cursor.seq with
  | none => return none
  | some x =>
    if x.header.shard ≠ shard ∨ x.header.seq ≠ cursor.seq then .fail (.brokenLink cursor.seq)
    else if x.header.prevDigest ≠ cursor.prevDigest then do
      let loaded ← loadManifest
      if cursor.seq ≤ loaded.elim 0 (·.1.head) then .fail (.brokenLink cursor.seq)
      else return none
    else return some x

def ChainCursor.next (cursor : ChainCursor) (x : Segment) : ChainCursor :=
  ⟨cursor.seq + 1, tenantsDigest crc32c x.tenants⟩

/-- The walk, with a sink that threads a state and says whether to keep
going. -/
def walkChainLinked {σ : Type} (sink : σ → Segment → Except ChainError (σ × Bool)) :
    Nat → ChainCursor → σ → Chain (ChainCursor × σ)
  | 0, _, _ => .fail .stopped
  | fuel + 1, cursor, st => do
      match ← walkNext mode shard cursor with
      | none => return (cursor, st)
      | some x =>
        match sink st x with
        | .error e => .fail e
        | .ok (st, true) => walkChainLinked sink fuel (cursor.next crc32c x) st
        | .ok (st, false) => return (cursor.next crc32c x, st)

end Chain

end Zou.Wal
