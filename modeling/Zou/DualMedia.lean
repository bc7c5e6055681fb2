import Mathlib.Data.List.Nodup
import Zou.Lib.Trace

/-!
# The dual media of one seq

In the express dual mode a segment lands on two of three media: two express
buckets and the standard one. `put_quorum` starts a thread for each express
bucket, and one for the standard bucket when an answer is late or an error,
and counts the answers that arrive over a channel. `seal` tries the two
express buckets one after the other and the standard one to break a tie.
Each medium takes the first object that is put under a key and keeps it.

Any number of writers and sealers run against the key of one seq. A put may
fail, or land with its answer lost; a caller may stop anywhere, and the puts
it had started may still land.
-/

namespace Zou

open Trace

inductive Medium where
  | az1
  | az2
  | standard
  deriving DecidableEq, Repr

/-- What a put-if-absent answers. -/
inductive PutReply where
  | ok
  | alreadyExists
  | io
  deriving DecidableEq, Repr

/-- What becomes of a request: it is answered, it is done and the answer is
lost, or it is not done. -/
inductive Wire where
  | answered
  | lost
  | dropped
  deriving DecidableEq, Repr

inductive PutError where
  | alreadyExists
  | io
  deriving DecidableEq, Repr

/-- The state of `put_quorum`. `answered` are the media that said ok, of
which the code keeps the number. -/
structure QuorumPut where
  pending : List Medium
  channel : List (Medium × PutReply)
  outstanding : Nat
  answered : List Medium
  hedged : Bool
  firstErr : Bool
  result : Option (Except PutError Unit)

def QuorumPut.new : QuorumPut := ⟨[.az1, .az2], [], 2, [], false, false, none⟩

inductive SealOutcome where
  | sealed
  | occupied
  deriving DecidableEq, Repr

/-- The state of `seal`: the medium it tries next and those it won. -/
structure Sealing where
  next : Medium
  won : List Medium
  result : Option (Except PutError SealOutcome)

def Sealing.new : Sealing := ⟨.az1, [], none⟩

inductive DualCall (B : Type) where
  | idle
  | put (bytes : B) (w : QuorumPut)
  | seal (bytes : B) (w : Sealing)

/-- The objects of the key, with the caller that put each (which no medium
keeps), and the callers. -/
structure DualMedia (B : Type) where
  media : Medium → Option (B × Nat)
  calls : Nat → DualCall B

inductive DualStep (B : Type) where
  | put (bytes : B)
  | seal (bytes : B)
  /-- A put that was started reaches its medium. -/
  | land (m : Medium) (wire : Wire)
  | receive
  | timeout
  | try (wire : Wire)
  | stop

/-- `WalMedia::fetch` on what it reads from the three media. -/
def fetchOf {B : Type} [DecidableEq B] (a b s : Option B) : Option B :=
  if a.isSome ∧ a = b then a
  else if a = none ∧ b = none then none
  else if s.isSome ∧ s = a then a
  else if s.isSome ∧ s = b then b
  else none

namespace QuorumPut

def launch (w : QuorumPut) : QuorumPut :=
  { w with pending := w.pending ++ [.standard], outstanding := w.outstanding + 1, hedged := true }

/-- The put thread's message. -/
def send (w : QuorumPut) (m : Medium) (r : PutReply) : QuorumPut :=
  { w with pending := w.pending.filter (· ≠ m), channel := w.channel ++ [(m, r)] }

/-- The loop is over when nothing is outstanding. -/
def settle (w : QuorumPut) : QuorumPut :=
  if w.outstanding = 0 ∧ w.result.isNone then { w with result := some (.error .io) } else w

/-- One message of the channel. -/
def receive (w : QuorumPut) (m : Medium) (r : PutReply) (rest : List (Medium × PutReply)) :
    QuorumPut :=
  let w := { w with channel := rest, outstanding := w.outstanding - 1 }
  match r with
  | .ok =>
    let w := { w with answered := w.answered ++ [m] }
    if 2 ≤ w.answered.length then { w with result := some (.ok ()) } else w.settle
  | .alreadyExists => { w with result := some (.error .alreadyExists) }
  | .io =>
    let w := { w with firstErr := true }
    if w.hedged then w.settle else w.launch

end QuorumPut

namespace Sealing

/-- One answer. -/
def answer (w : Sealing) : PutReply → Sealing
  | .io => { w with result := some (.error .io) }
  | r =>
    let won := if r = .ok then w.won ++ [w.next] else w.won
    match w.next with
    | .az1 => { w with next := .az2, won := won }
    | .az2 =>
      if won.length = 2 then { w with won := won, result := some (.ok .sealed) }
      else if won.length = 1 then { w with next := .standard, won := won }
      else { w with won := won, result := some (.ok .occupied) }
    | .standard => { w with
        won := won
        result := some (.ok (if r = .ok then .sealed else .occupied)) }

end Sealing

namespace DualMedia

variable {B : Type}

def empty : DualMedia B := ⟨fun _ => none, fun _ => .idle⟩

/-- `put_if_absent` of caller `i` on a medium. -/
def putIfAbsent (s : DualMedia B) (i : Nat) (m : Medium) (bytes : B) (wire : Wire) :
    (Medium → Option (B × Nat)) × PutReply :=
  match wire, s.media m with
  | .dropped, _ => (s.media, .io)
  | .lost, some _ => (s.media, .io)
  | .answered, some _ => (s.media, .alreadyExists)
  | .lost, none => (Function.update s.media m (some (bytes, i)), .io)
  | .answered, none => (Function.update s.media m (some (bytes, i)), .ok)

def goto (s : DualMedia B) (i : Nat) (call : DualCall B) : DualMedia B :=
  { s with calls := Function.update s.calls i call }

def next (s : DualMedia B) : Nat × DualStep B → Option (DualMedia B)
  | (i, .put bytes) => match s.calls i with
      | .idle => some (s.goto i (.put bytes .new))
      | _ => none
  | (i, .seal bytes) => match s.calls i with
      | .idle => some (s.goto i (.seal bytes .new))
      | _ => none
  | (i, .land m wire) => match s.calls i with
      | .put bytes w =>
        if m ∈ w.pending then
          let r := s.putIfAbsent i m bytes wire
          some { media := r.1, calls := Function.update s.calls i (.put bytes (w.send m r.2)) }
        else none
      | _ => none
  | (i, .receive) => match s.calls i with
      | .put bytes w => match w.result, w.channel with
          | none, (m, r) :: rest => some (s.goto i (.put bytes (w.receive m r rest)))
          | _, _ => none
      | _ => none
  | (i, .timeout) => match s.calls i with
      | .put bytes w =>
        if w.result.isNone ∧ w.hedged = false then some (s.goto i (.put bytes w.launch)) else none
      | _ => none
  | (i, .try wire) => match s.calls i with
      | .seal bytes w =>
        if w.result.isNone then
          let r := s.putIfAbsent i w.next bytes wire
          some { media := r.1, calls := Function.update s.calls i (.seal bytes (w.answer r.2)) }
        else none
      | _ => none
  | (i, .stop) => match s.calls i with
      | .put bytes w =>
        if w.result.isNone then
          some (s.goto i (.put bytes { w with result := some (.error .io) }))
        else none
      | .seal bytes w =>
        if w.result.isNone then
          some (s.goto i (.seal bytes { w with result := some (.error .io) }))
        else none
      | .idle => none

/-- Caller `i` reported success with `bytes`. -/
def Succeeded (s : DualMedia B) (i : Nat) (bytes : B) : Prop :=
  (∃ w, s.calls i = .put bytes w ∧ w.result = some (.ok ()))
    ∨ ∃ w, s.calls i = .seal bytes w ∧ w.result = some (.ok .sealed)

def bytesAt (s : DualMedia B) (m : Medium) : Option B := (s.media m).map Prod.fst

end DualMedia

end Zou
