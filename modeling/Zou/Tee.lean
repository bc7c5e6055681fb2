import Zou.Lib.Trace
import Zou.Frame

/-!
# The tee

Every durable window is fanned out to the subscriptions that match it.
`publish` holds the lock of the list and visits one subscription after the
other; for each it reads the bytes the subscription has used, and either
cuts it or adds to them and sends. Receivers run next to it: `recv` takes
an event off its channel and then gives the bytes back. A subscription is
modelled as long as anybody has it: `attached` says that the tee still
does, `dropped` that its receiver is gone.

`received`, `seen` and `since` are ghosts: the events its receives
returned, the windows the publisher is through with for it, and how many
windows were published before it subscribed.
-/

namespace Zou

open Wire (Frame2)

inductive TeeFilter where
  | tenant (tenant : BitVec 128)
  | pageShard (tenant : BitVec 128) (shard shardCount : Nat)
  deriving DecidableEq, Repr

/-- Without hints a frame matches every stripe of its tenant. -/
def TeeFilter.matches (crc32c : List UInt8 → Nat) (filter : TeeFilter) (frame : Frame2) : Bool :=
  match filter with
  | .tenant t => frame.tenant = t
  | .pageShard t shard shardCount =>
    frame.tenant = t
      && (frame.hints.isEmpty
        || frame.hints.any fun h =>
          Zou.pageShard crc32c h.relfilenode.toNat h.block.toNat shardCount = shard)

inductive TeeEvent where
  | window (seq : Nat) (frames : List Frame2)
  | lagged (nextSeq : Nat)
  deriving DecidableEq, Repr

def eventBytes (frames : List Frame2) : Nat :=
  frames.foldr (fun f n => f.payload.length + 64 + n) 0

/-- What receiving an event gives back. -/
def TeeEvent.bytes : TeeEvent → Nat
  | .window _ frames => eventBytes frames
  | .lagged _ => 0

/-- A subscription: the tee's entry, the channel, and the receiving end. -/
structure SubEntry where
  filter : TeeFilter
  budget : Nat
  used : Nat
  queue : List TeeEvent
  /-- Taken off the channel by a receive that has not given its bytes back. -/
  hand : Option TeeEvent
  attached : Bool
  dropped : Bool
  received : List TeeEvent
  seen : List (Nat × List Frame2)
  since : Nat
  deriving DecidableEq, Repr

/-- What the publisher does next for the subscription it is at. -/
inductive VisitPc where
  | visit
  | add (matching : List Frame2)
  | send (matching : List Frame2)
  | cut
  deriving DecidableEq, Repr

structure Publish where
  seq : Nat
  frames : List Frame2
  /-- The subscription it is at. -/
  sub : Nat
  pc : VisitPc
  deriving DecidableEq, Repr

structure Tee where
  subs : List SubEntry
  /-- Every window published, oldest first. -/
  published : List (Nat × List Frame2)
  /-- The call that holds the lock. -/
  publishing : Option Publish
  deriving DecidableEq, Repr

inductive TeeStep where
  | subscribe (filter : TeeFilter) (budget : Nat)
  | publish (seq : Nat) (frames : List Frame2)
  /-- The publisher's next step. -/
  | advance
  | take (i : Nat)
  | settle (i : Nat)
  | drop (i : Nat)
  deriving DecidableEq, Repr

namespace SubEntry

def new (filter : TeeFilter) (budget since : Nat) : SubEntry :=
  ⟨filter, budget, 0, [], none, true, false, [], [], since⟩

def matching (crc32c : List UInt8 → Nat) (e : SubEntry) (frames : List Frame2) : List Frame2 :=
  frames.filter (e.filter.matches crc32c)

/-- `tx.send`. -/
def send (e : SubEntry) (ev : TeeEvent) : SubEntry :=
  if e.dropped then e else { e with queue := e.queue ++ [ev] }

/-- The publisher is through with `w`. -/
def passed (e : SubEntry) (w : Nat × List Frame2) : SubEntry := { e with seen := e.seen ++ [w] }

/-- `recv`, off the channel. -/
def take (e : SubEntry) : Option SubEntry :=
  match e.hand, e.queue with
  | none, ev :: queue => if e.dropped then none else some { e with queue, hand := some ev }
  | _, _ => none

/-- `recv`, when it returns. -/
def settle (e : SubEntry) : Option SubEntry :=
  e.hand.map fun ev =>
    { e with used := e.used - ev.bytes, hand := none, received := e.received ++ [ev] }

def drop (e : SubEntry) : Option SubEntry :=
  if e.hand.isSome then none else some { e with queue := [], dropped := true }

end SubEntry

namespace Tee

def empty : Tee := ⟨[], [], none⟩

/-- The step of the publisher at an attached subscription, and what it does
next, `none` when it goes on to the next one. -/
def visit (crc32c : List UInt8 → Nat) (p : Publish) (e : SubEntry) : SubEntry × Option VisitPc :=
  match p.pc with
  | .visit =>
    let matching := e.matching crc32c p.frames
    if matching = [] then (e.passed (p.seq, p.frames), none)
    else if e.used + eventBytes matching > e.budget then (e, some .cut)
    else (e, some (.add matching))
  | .add matching => ({ e with used := e.used + eventBytes matching }, some (.send matching))
  | .send matching =>
    ({ (e.send (.window p.seq matching)).passed (p.seq, p.frames) with
      attached := !e.dropped }, none)
  | .cut =>
    ({ (e.send (.lagged p.seq)).passed (p.seq, p.frames) with attached := false }, none)

def advance (crc32c : List UInt8 → Nat) (s : Tee) (p : Publish) : Tee :=
  match s.subs[p.sub]? with
  | none => { s with publishing := none }
  | some e =>
    if e.attached then
      let (e', pc) := visit crc32c p e
      { s with
        subs := s.subs.set p.sub e'
        publishing := some (match pc with
          | some pc => { p with pc }
          | none => { p with sub := p.sub + 1, pc := .visit }) }
    else
      { s with
        subs := s.subs.set p.sub (e.passed (p.seq, p.frames))
        publishing := some { p with sub := p.sub + 1, pc := .visit } }

/-- A step of the receiver of subscription `i`. -/
def receiver (s : Tee) (i : Nat) (f : SubEntry → Option SubEntry) : Option Tee := do
  let e ← s.subs[i]?
  let e' ← f e
  some { s with subs := s.subs.set i e' }

def next (crc32c : List UInt8 → Nat) (s : Tee) : TeeStep → Option Tee
  | .subscribe filter budget =>
    if s.publishing.isSome then none
    else some { s with subs := s.subs ++ [.new filter budget s.published.length] }
  | .publish seq frames =>
    if s.publishing.isSome then none
    else some { s with
      published := s.published ++ [(seq, frames)]
      publishing := some ⟨seq, frames, 0, .visit⟩ }
  | .advance => s.publishing.map (advance crc32c s)
  | .take i => s.receiver i SubEntry.take
  | .settle i => s.receiver i SubEntry.settle
  | .drop i => s.receiver i SubEntry.drop

end Tee

end Zou
