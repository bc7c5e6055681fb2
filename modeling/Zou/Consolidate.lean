import Zou.WalChain

/-!
# Consolidation

A round folds the landing chain past the consolidated boundary into one
sealed object, sorted by tenant and lsn, and publishes an index of it: the
sealed object is written, then the index, each create only, and then the
shard manifest is swapped, which is the commit. A round a predecessor wrote
and did not publish is published as it is.

The watermark of a tenant is where its stream ended in the last round. A
frame at or below it is a retry and is dropped, and any other has to start
at it (`foldFrame`).

The store has the index objects and the sealed objects beside those of the
chain. A sealed object is the frames in it, and an index has no byte
ranges.
-/

namespace Zou.Wal

open Client

structure RoundTenant where
  tenant : Nat
  watermark : Lsn
  frames : Nat
  deriving DecidableEq, Repr

structure RoundIndex where
  format : Nat
  round : Nat
  firstSeq : Nat
  lastSeq : Nat
  tenants : List RoundTenant
  deriving DecidableEq, Repr

def roundIndexFormat : Nat := 1

inductive ConsolidateError where
  | chain (e : ChainError)
  | store (e : CasError)
  | badRound (round : Nat)
  | discontinuity (tenant expect found : Nat)
  | raced
  deriving DecidableEq, Repr

structure ConsolidateOutcome where
  round : Nat
  firstSeq : Nat
  lastSeq : Nat
  frames : Nat
  adopted : Bool
  deriving DecidableEq, Repr

/-! ## The store -/

inductive FoldRequest where
  | chain (q : Request)
  | getRound (round : Nat)
  | putRound (round : Nat) (index : RoundIndex)
  | putSealed (key : Nat × Nat) (frames : List LogFrame)

abbrev FoldRequest.Reply : FoldRequest → Type
  | .chain q => q.Reply
  | .getRound _ => Except CasError (Option RoundIndex)
  | .putRound _ _ => Except CasError Unit
  | .putSealed _ _ => Except CasError Unit

/-- The sealed objects are under the seqs they cover. -/
structure FoldStore where
  chain : Store
  rounds : Nat → Option RoundIndex
  sealedAt : Nat × Nat → Option (List LogFrame)

namespace FoldStore

/-- A create only put: whether it lands and what its caller hears. -/
def create {α : Type} (slot : Option α) : Wire → Bool × Except CasError Unit
  | .dropped => (false, .error .io)
  | .answered => if slot.isSome then (false, .error .alreadyExists) else (true, .ok ())
  | .lost => (slot.isNone, .error .io)

def putRound (s : FoldStore) (round : Nat) (index : RoundIndex) (wire : Wire) :
    FoldStore × Except CasError Unit :=
  let r := create (s.rounds round) wire
  (if r.1 then { s with rounds := Function.update s.rounds round (some index) } else s, r.2)

def putSealed (s : FoldStore) (key : Nat × Nat) (frames : List LogFrame) (wire : Wire) :
    FoldStore × Except CasError Unit :=
  let r := create (s.sealedAt key) wire
  (if r.1 then { s with sealedAt := Function.update s.sealedAt key (some frames) } else s, r.2)

def exec (s : FoldStore) : (q : FoldRequest) → Wire → Option (FoldStore × q.Reply)
  | .chain q, wire => (s.chain.exec q wire).map fun x => ({ s with chain := x.1 }, x.2)
  | .getRound round, .answered => some (s, .ok (s.rounds round))
  | .getRound _, _ => some (s, .error .io)
  | .putRound round index, wire => some (s.putRound round index wire)
  | .putSealed key frames, wire => some (s.putSealed key frames wire)

end FoldStore

abbrev Fold := Prog FoldRequest FoldRequest.Reply ConsolidateError

/-- A client of the chain. -/
def ofChain {α : Type} (p : Chain α) : Fold α :=
  (p.mapErr ConsolidateError.chain).through FoldRequest.chain fun _ r => r

/-- `RoundIndex::load`. -/
def loadRound (round : Nat) : Fold (Option RoundIndex) := do
  match ← Prog.request (FoldRequest.getRound round) with
  | .error e => .fail (.store e)
  | .ok none => return none
  | .ok (some index) =>
    if roundIndexFormat < index.format then .fail (.badRound round) else return some index

/-! ## The fold -/

/-- The order of the sealed object. -/
def frameLe (f g : LogFrame) : Prop :=
  f.tenant < g.tenant ∨ (f.tenant = g.tenant
    ∧ (f.startLsn < g.startLsn ∨ (f.startLsn = g.startLsn ∧ f.endLsn ≤ g.endLsn)))

instance (f g : LogFrame) : Decidable (frameLe f g) := inferInstanceAs (Decidable (_ ∨ _))

def sortFrames (frames : List LogFrame) : List LogFrame := frames.insertionSort frameLe

/-- Whether a frame is kept. -/
def foldFrame (watermarks : OrdMap Nat Nat) (f : LogFrame) : Except ConsolidateError Bool :=
  match watermarks.get? f.tenant with
  | none => .ok true
  | some w =>
    if f.endLsn ≤ w then .ok false
    else if f.startLsn ≠ w then .error (.discontinuity f.tenant w f.startLsn)
    else .ok true

/-- The watermarks after the frames, and the frames that are kept. -/
def foldFrames (watermarks : OrdMap Nat Nat) (kept : List LogFrame) :
    List LogFrame → Except ConsolidateError (OrdMap Nat Nat × List LogFrame)
  | [] => .ok (watermarks, kept)
  | f :: frames =>
    match foldFrame watermarks f with
    | .error e => .error e
    | .ok false => foldFrames watermarks kept frames
    | .ok true => foldFrames (watermarks.insert f.tenant f.endLsn) (kept ++ [f]) frames

/-- The newest round's watermarks. -/
def RoundIndex.watermarks (index : RoundIndex) : OrdMap Nat Nat :=
  index.tenants.foldl (fun m t => m.insert t.tenant t.watermark) OrdMap.empty

/-- The tenants of the index of a round. -/
def roundTenants (watermarks : OrdMap Nat Nat) (kept : List LogFrame) : List RoundTenant :=
  watermarks.entries.map fun e => ⟨e.1, e.2, (kept.filter fun f => f.tenant = e.1).length⟩

/-! ## A round -/

def ShardManifest.nextRound (m : ShardManifest) : Nat := m.rounds.elim 1 fun r => r.2 + 1

/-- What a round starts from: the manifest with its version, the boundary,
the segments past it and the watermarks at it. -/
structure Folding where
  manifest : ShardManifest
  version : Nat
  lastSeq : Nat
  lastDigest : Nat
  watermarks : OrdMap Nat Nat
  frames : List LogFrame

/-- What `consolidate` reads before it writes. -/
inductive Gathered where
  | nothing
  | adopt (manifest : ShardManifest) (version : Nat) (existing : RoundIndex) (digest : Nat)
  | fold (x : Folding)

section Round

variable (mode : DurabilityMode) (shard : Nat) (crc32c : List UInt8 → Nat)

/-- `read_chain_linked`, past a boundary. -/
def readChainLinked (fuel upto prevDigest : Nat) : Chain (List Segment) := do
  let r ← walkChainLinked mode shard crc32c (fun out x => .ok (out ++ [x], true)) fuel
    ⟨upto + 1, prevDigest⟩ []
  return r.2

/-- The watermarks of the newest published round. -/
def baseline (manifest : ShardManifest) : Fold (OrdMap Nat Nat) :=
  match manifest.rounds with
  | none => return OrdMap.empty
  | some (_, last) => do
      match ← loadRound last with
      | none => .fail (.badRound last)
      | some prev => return prev.watermarks

def gather (fuel : Nat) : Fold Gathered := do
  match ← ofChain (liftM loadManifest) with
  | none => return .nothing
  | some (manifest, version) => do
      match ← loadRound manifest.nextRound with
      | some existing =>
        if existing.firstSeq ≠ manifest.consolidatedUpto + 1 then
          .fail (.badRound manifest.nextRound)
        else do
          let digest ← ofChain (digestOfSegment mode crc32c existing.lastSeq)
          return .adopt manifest version existing digest
      | none => do
          let segments ← ofChain (readChainLinked mode shard crc32c fuel
            manifest.consolidatedUpto manifest.consolidatedDigest)
          match segments.getLast? with
          | none => return .nothing
          | some last => do
              let watermarks ← baseline manifest
              return .fold
                { manifest := manifest
                  version := version
                  lastSeq := last.header.seq
                  lastDigest := tenantsDigest crc32c last.tenants
                  watermarks := watermarks
                  frames := segments.flatMap Segment.frames }

/-- The manifest with one more round. -/
def ShardManifest.published (manifest : ShardManifest) (upto digest round : Nat) : ShardManifest :=
  { manifest with
    consolidatedUpto := upto
    consolidatedDigest := digest
    rounds := some (manifest.rounds.elim round Prod.fst, round) }

def publish (manifest : ShardManifest) (version upto digest round : Nat) : Fold Unit := do
  match ← Prog.request (FoldRequest.chain
      (.putIfMatch (manifest.published upto digest round) (some version))) with
  | .ok () => return ()
  | .error .conflict => .fail .raced
  | .error e => .fail (.store e)

/-- The index of a round and its publication. -/
def writeIndex (x : Folding) (watermarks : OrdMap Nat Nat) (kept : List LogFrame) :
    Fold (Option ConsolidateOutcome) := do
  let firstSeq := x.manifest.consolidatedUpto + 1
  let round := x.manifest.nextRound
  let index : RoundIndex :=
    ⟨roundIndexFormat, round, firstSeq, x.lastSeq, roundTenants watermarks kept⟩
  match ← Prog.request (FoldRequest.putRound round index) with
  | .ok () => do
      publish x.manifest x.version x.lastSeq x.lastDigest round
      return some ⟨round, firstSeq, x.lastSeq, kept.length, false⟩
  | .error .alreadyExists => .fail .raced
  | .error e => .fail (.store e)

/-- The objects of a round and its publication. A sealed object that is
there already covers the same seqs of the same chain. -/
def writeRound (x : Folding) (watermarks : OrdMap Nat Nat) (kept : List LogFrame) :
    Fold (Option ConsolidateOutcome) := do
  match ← Prog.request (FoldRequest.putSealed (x.manifest.consolidatedUpto + 1, x.lastSeq) kept) with
  | .ok () => writeIndex x watermarks kept
  | .error .alreadyExists => writeIndex x watermarks kept
  | .error e => .fail (.store e)

def finish : Gathered → Fold (Option ConsolidateOutcome)
  | .nothing => return none
  | .adopt manifest version existing digest => do
      publish manifest version existing.lastSeq digest manifest.nextRound
      return some ⟨manifest.nextRound, existing.firstSeq, existing.lastSeq,
        existing.tenants.foldl (fun n t => n + t.frames) 0, true⟩
  | .fold x =>
    match foldFrames x.watermarks [] (sortFrames x.frames) with
    | .error e => .fail e
    | .ok (watermarks, kept) => writeRound x watermarks kept

def consolidate (fuel : Nat) : Fold (Option ConsolidateOutcome) :=
  gather mode shard crc32c fuel >>= finish

end Round

end Zou.Wal
