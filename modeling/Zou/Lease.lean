import Zou.Lib.Trace
import Zou.Lib.Cell
import Zou.Manifest

/-!
# The writer lease protocol

Any number of threads, on any number of nodes, run `take` (behind
`acquire`, `steal` and `takeover`), `renew`, `release` and
`update_manifest` against one manifest object. A thread's program
counter says which store operation it does next, so two calls interleave
between any two of their requests. Clocks are arguments, so they are
arbitrary, and every store operation may fail or land with its reply
lost.

`HeldLease` values live in a table. A call names the handle it goes
through and copies it when it begins, `clone` duplicates one (the source
derives `Clone`), and a call that succeeds writes its handle back.
`takes` is a ghost: the epochs of the takes that returned `Ok`, in the
order they did.
-/

namespace Zou

/-- How far past the arithmetic bound a lease may sit before the
disagreement is called skew. -/
def skewGraceSecs : Nat := 5

/-- Lost manifest races a takeover reads through. -/
def races : Nat := 5

inductive LeaseError where
  | noManifest
  | held (holder : String) (expiresUnix : Nat)
  | skew (holder : String) (expiresUnix ttlSecs aheadSecs : Nat)
  | raced
  | lost (holder : String) (epoch : Nat)
  | manifest (e : ManifestError)
  | store
  deriving DecidableEq, Repr

/-- The format gate of `from_json`. The object holds what some version
of this code wrote, so the number is all that can be wrong with it. -/
def Manifest.fromJson (m : Manifest) : Except ManifestError Manifest :=
  if m.format > manifestFormat then .error (.formatTooNew m.format) else .ok m

structure TakeArgs where
  holder : String
  endpoint : Option String
  ttlSecs : Nat
  nowUnix : Nat
  force : Bool
  deriving DecidableEq, Repr

/-- Proof of a successful acquisition. The version pins the manifest for
the next swap. -/
structure HeldLease (V : Type) where
  holder : String
  epoch : Nat
  fence : Nat
  expiresUnix : Nat
  manifest : Manifest
  version : V
  lastHistoryUnix : Nat
  deriving DecidableEq, Repr

/-- A closure `update_manifest` is called with. Every one in the source
publishes checkpoints, the fold cursor or the elision mark and leaves
the lease and the epoch to the lease protocol. -/
structure Mutation where
  apply : Manifest → Manifest
  epoch_eq : ∀ m, (apply m).epoch = m.epoch
  lease_eq : ∀ m, (apply m).lease = m.lease

namespace Mutation

/-- The fold's publish: append the checkpoint unless it is there, drop
what a full one replaces, move the fold cursor. -/
def publishCheckpoint (c : CheckpointRef) (redo : Lsn) : Mutation where
  apply m :=
    let pushed := if m.checkpoints.any (·.id = c.id) then m.checkpoints
      else m.checkpoints ++ [c]
    let kept := if c.kind = .full then
        (pushed.reverse.take (pushed.reverse.findIdx (·.id = c.id) + 1)).reverse
      else pushed
    { m with checkpoints := kept, foldedUpto := some redo }
  epoch_eq _ := rfl
  lease_eq _ := rfl

end Mutation

/-! ## What each call computes -/

/-- What `take` answers from the manifest it read: the lease is free,
expired, ours or taken by force, or it is somebody else's. -/
def TakeArgs.refusal (a : TakeArgs) (m : Manifest) : Option LeaseError :=
  if a.force then none else
  match m.lease with
  | none => none
  | some lease =>
    if lease.expiresUnix ≤ a.nowUnix ∨ lease.holder = a.holder then none else
    let theirTtl := max (lease.ttlSecs.getD a.ttlSecs) a.ttlSecs
    let furthest := a.nowUnix + theirTtl + skewGraceSecs
    if lease.expiresUnix > furthest then
      some (.skew lease.holder lease.expiresUnix a.ttlSecs (lease.expiresUnix - furthest))
    else some (.held lease.holder lease.expiresUnix)

def TakeArgs.fence (m : Manifest) : Nat := (m.lease.map Lease.fence).getD 0 + 1

/-- The manifest a take swaps in. -/
def TakeArgs.grant (a : TakeArgs) (m : Manifest) : Manifest :=
  { m with
    epoch := m.epoch + 1
    lease := some {
      holder := a.holder
      expiresUnix := a.nowUnix + a.ttlSecs
      fence := TakeArgs.fence m
      endpoint := a.endpoint
      ttlSecs := some a.ttlSecs } }

/-- The handle a take returns once the grant over `m` went in under `v`. -/
def TakeArgs.heldLease {V : Type} (a : TakeArgs) (m : Manifest) (v : V) : HeldLease V where
  holder := a.holder
  epoch := (a.grant m).epoch
  fence := TakeArgs.fence m
  expiresUnix := a.nowUnix + a.ttlSecs
  manifest := a.grant m
  version := v
  lastHistoryUnix := 0

/-- The lease `renew` writes. -/
def extendLease (ttlSecs nowUnix : Nat) (m : Manifest) : Manifest :=
  { m with lease := m.lease.map fun l =>
      { l with expiresUnix := nowUnix + ttlSecs, ttlSecs := some ttlSecs } }

/-- Did the mutation touch anything besides the lease and the publish
stamp. -/
def publishes (f : Mutation) (m : Manifest) : Bool :=
  decide ({ m with lease := none, publishedUnix := none }
    ≠ { f.apply m with lease := none, publishedUnix := none })

/-- The manifest `update_manifest` swaps in. -/
def updated (f : Mutation) (nowUnix : Nat) (m : Manifest) : Manifest :=
  if publishes f m then { f.apply m with publishedUnix := some nowUnix } else f.apply m

/-- A call through a handle. -/
inductive Op where
  | renew (ttlSecs nowUnix : Nat)
  | release
  | update (nowUnix : Nat) (f : Mutation)

/-- What a call through a handle does to the manifest it has read. -/
def Op.edit : Op → Manifest → Manifest
  | .renew ttl now, m => extendLease ttl now m
  | .release, m => { m with lease := none }
  | .update now f, m => updated f now m

/-- `reread_checking_ownership`, past the read. -/
def HeldLease.ours {V : Type} (h : HeldLease V) (m : Manifest) : Bool :=
  (m.lease.any fun l => l.holder = h.holder ∧ l.fence = h.fence) && m.epoch = h.epoch

/-- What a handle that is no longer ours is told. -/
def Manifest.lostTo (m : Manifest) : LeaseError :=
  .lost ((m.lease.map Lease.holder).getD "") m.epoch

/-- The handle after a swap of `m` under `v`. -/
def Op.written {V : Type} (op : Op) (h : HeldLease V) (m : Manifest) (v : V) : HeldLease V :=
  match op with
  | .renew ttl now => { h with version := v, expiresUnix := now + ttl, manifest := m }
  | .release => h
  | .update _ _ => { h with version := v, manifest := m }

/-! ## Threads -/

/-- The loop state of `takeover_with`. -/
structure Wait where
  holder : String
  endpoint : Option String
  ttlSecs : Nat
  deadline : Nat
  lostRaces : Nat
  deriving DecidableEq, Repr

/-- The next request of a thread. -/
inductive Pc (V : Type) where
  | idle
  /-- `takeover_with`, about to read its clock. -/
  | clock (w : Wait)
  | takeGet (a : TakeArgs) (w : Option Wait)
  /-- `m` is the manifest the take read, under `expected`. -/
  | takeSwap (a : TakeArgs) (w : Option Wait) (m : Manifest) (expected : V)
  /-- The renewal's first try, against the version in hand. -/
  | renewSwap (i : Nat) (h : HeldLease V) (ttlSecs nowUnix : Nat)
  | reread (i : Nat) (h : HeldLease V) (op : Op)
  | swap (i : Nat) (h : HeldLease V) (op : Op) (m : Manifest) (expected : V)
  /-- `update_manifest`, after its swap landed. -/
  | history (i : Nat) (h : HeldLease V) (nowUnix : Nat)
  | done (r : Except LeaseError Unit)

inductive Call where
  | take (a : TakeArgs)
  | takeover (holder : String) (endpoint : Option String) (ttlSecs limit nowUnix : Nat)
  | through (i : Nat) (op : Op)

structure Sys (V : Type) where
  cell : Option (Manifest × V)
  history : Nat × Nat → Option Manifest
  handles : List (HeldLease V)
  pcs : Nat → Pc V
  takes : List Nat

/-- How the environment answers a request that carries no token. -/
inductive Ack where
  | reply
  | lost
  | fail
  deriving DecidableEq, Repr

/-- One step: a thread begins a call, reads its clock, or does its next
request, a handle is cloned, or a publisher that is not a lease holder
(a split or a merge) swaps the manifest. -/
inductive Label (V : Type) where
  | begin (t : Nat) (c : Call)
  | clock (t : Nat) (nowUnix : Nat)
  | get (t : Nat) (ok : Bool)
  | put (t : Nat) (io : Cell.Io V)
  | snapshot (t : Nat) (ack : Ack)
  | clone (i : Nat)
  | publish (f : Mutation) (tok : V)

def Label.thread {V : Type} : Label V → Option Nat
  | .begin t _ | .clock t _ | .get t _ | .put t _ | .snapshot t _ => some t
  | .clone _ | .publish _ _ => none

variable {V : Type} [DecidableEq V]

namespace Sys

def goto (s : Sys V) (t : Nat) (pc : Pc V) : Sys V :=
  { s with pcs := Function.update s.pcs t pc }

/-- A take ended in `e`. `takeover_with` waits out a live lease that
ends before its deadline and reads through a few lost races. -/
def takeFailed (w : Option Wait) (e : LeaseError) : Pc V :=
  match w, e with
  | some w, .held _ expires => if expires ≥ w.deadline then .done (.error e) else .clock w
  | some w, .raced =>
    if w.lostRaces + 1 > races then .done (.error e)
    else .clock { w with lostRaces := w.lostRaces + 1 }
  | _, e => .done (.error e)

/-- Where a call begins. -/
def start (s : Sys V) : Call → Option (Pc V)
  | .take a => some (.takeGet a none)
  | .takeover holder endpoint ttl limit now =>
    some (.clock ⟨holder, endpoint, ttl, now + limit, 0⟩)
  | .through i op => (s.handles[i]?).map fun h =>
    match op with
    | .renew ttl now => if h.manifest.lease.isSome then .renewSwap i h ttl now
        else .reread i h op
    | _ => .reread i h op

/-- What a thread does with the manifest it asked for. -/
def afterGet (cell : Option (Manifest × V)) : Pc V → Option (Pc V)
  | .takeGet a w => some <|
      match cell with
      | none => takeFailed w .noManifest
      | some (m, v) =>
        match m.fromJson with
        | .error e => takeFailed w (.manifest e)
        | .ok m =>
          match a.refusal m with
          | some e => takeFailed w e
          | none => .takeSwap a w m v
  | .reread i h op => some <|
      match cell with
      | none => .done (.error .noManifest)
      | some (m, v) =>
        match m.fromJson with
        | .error e => .done (.error (.manifest e))
        | .ok m => if h.ours m then .swap i h op m v
            else .done (.error (m.lostTo))
  | _ => none

/-- The manifest a thread is about to swap in and the version it
expects. -/
def request : Pc V → Option (Manifest × V)
  | .takeSwap a _ m v => some (a.grant m, v)
  | .renewSwap _ h ttl now => some (extendLease ttl now h.manifest, h.version)
  | .swap _ _ op m v => some (op.edit m, v)
  | _ => none

/-- A swap landed and its caller heard so. -/
def landed (s : Sys V) (t : Nat) (v : V) : Pc V → Sys V
  | .takeSwap a _ m _ =>
    { s with
      handles := s.handles ++ [a.heldLease m v]
      takes := s.takes ++ [(a.grant m).epoch] }.goto t (.done (.ok ()))
  | .renewSwap i h ttl now =>
    let h' := (Op.renew ttl now).written h (extendLease ttl now h.manifest) v
    { s with handles := s.handles.set i h' }.goto t (.done (.ok ()))
  | .swap i h op m _ =>
    let h' := op.written h (op.edit m) v
    { s with handles := s.handles.set i h' }.goto t <|
      match op with
      | .update now f =>
        if publishes f m ∧ h.lastHistoryUnix ≠ now then .history i h' now
        else .done (.ok ())
      | _ => .done (.ok ())
  | _ => s

/-- A swap did not land, or its caller cannot know. -/
def swapFailed (e : LeaseError) : Pc V → Pc V
  | .takeSwap _ w _ _ => takeFailed w e
  | .renewSwap i h ttl now =>
    if e = .raced then .reread i h (.renew ttl now) else .done (.error e)
  | _ => .done (.error e)

def next (content : V → Manifest) (s : Sys V) : Label V → Option (Sys V)
  | .begin t c =>
    match s.pcs t with
    | .idle | .done _ => (s.start c).map (s.goto t)
    | _ => none
  | .clock t now =>
    match s.pcs t with
    | .clock w => some (s.goto t (.takeGet ⟨w.holder, w.endpoint, w.ttlSecs, now, false⟩ w))
    | _ => none
  | .get t ok =>
    if ok then (afterGet s.cell (s.pcs t)).map (s.goto t)
    else (afterGet s.cell (s.pcs t)).map fun _ => s.goto t (.done (.error .store))
  | .put t io => do
      let (m, v) ← request (s.pcs t)
      let (cell, r) ← Cell.putIfMatch content s.cell m (some v) io
      let s' := { s with cell := cell }
      match r with
      | .ok tok => some (s'.landed t tok (s.pcs t))
      | .conflict => some (s'.goto t (swapFailed .raced (s.pcs t)))
      | .err => some (s'.goto t (swapFailed .store (s.pcs t)))
  | .snapshot t ack =>
    match s.pcs t with
    | .history i h now =>
      let key := (h.manifest.epoch, now)
      let wrote := Function.update s.history key
        (some ((s.history key).getD { h.manifest with lease := none }))
      let s' := (if ack = .fail then s else { s with history := wrote }).goto t (.done (.ok ()))
      some (if ack = .reply then
        { s' with handles := s'.handles.set i { h with lastHistoryUnix := now } } else s')
    | _ => none
  | .clone i => (s.handles[i]?).map fun h => { s with handles := s.handles ++ [h] }
  | .publish f tok =>
    match s.cell with
    | some (m, _) => if content tok = f.apply m then
        some { s with cell := some (f.apply m, tok) } else none
    | none => none

/-- Nobody has called anything yet. -/
structure Init (content : V → Manifest) (s : Sys V) : Prop where
  sound : Cell.Sound content s.cell
  handles : s.handles = []
  pcs : ∀ t, s.pcs t = .idle
  takes : s.takes = []

end Sys

end Zou
