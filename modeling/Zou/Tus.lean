import Mathlib.Algebra.Order.Ring.Nat
import Zou.Lib.Trace

/-!
# Resumable uploads

One upload of the tus protocol: its row, the blobs of its parts, the object
it ends in, and the requests that have read the row and not yet written. A
patch reads the row and checks its offset in one step, and puts its part,
moves the offset and finishes in another, since nothing locks the row in
between. A creation that carries bytes is a creation and a patch in one
transaction, so its row is there for others when the transaction commits.

Bytes that reach the declared length are joined and written as an object in
the transaction that moved the offset. How the store and the database answer
is part of a step's label: a failure rolls back, and an object that the
bucket or a policy refuses is answered after a commit.
-/

namespace Zou.Tus

open Trace

abbrev Bytes := List UInt8

def MAX_SIZE : Nat := 52428800000

/-- The row of an upload, and how many part rows name it. -/
structure Upload where
  offset : Nat
  /-- The declared length, nothing while it is deferred. -/
  length : Option Nat
  parts : Nat
  deriving DecidableEq

/-- A request between its read of the row and its write. -/
structure Patch where
  upload : Upload
  bytes : Bytes
  /-- The length a deferred upload is finally declaring. -/
  later : Option Nat
  /-- Whether the same transaction inserts the row. -/
  creating : Bool
  deriving DecidableEq

/-- A body answered with a success, and where it was to start. -/
structure Ack where
  offset : Nat
  body : Bytes
  deriving DecidableEq

/-- The offset a success answers. -/
def Ack.answer (a : Ack) : Nat := a.offset + a.body.length

structure State where
  created : Bool
  row : Option Upload
  /-- The part blobs by their number. -/
  blobs : Nat → Option Bytes
  pending : Nat → Option Patch
  object : Option Bytes
  /-- The successes answered, oldest first. -/
  acked : List Ack

def start : State :=
  { created := false, row := none, blobs := fun _ => none, pending := fun _ => none
    object := none, acked := [] }

/-- How the store and the database answer a write. -/
inductive Outcome where
  | done
  /-- The store does not take the part. -/
  | putFails
  /-- The database does not take the rows, or the commit. -/
  | rowFails
  /-- A part cannot be read back. -/
  | getFails
  /-- The bucket or a policy refuses the object, which is a commit. -/
  | refused
  /-- The object's row or its bytes cannot be written. -/
  | writeFails
  deriving DecidableEq

inductive Act where
  | create (r : Nat) (asked : Option Nat) (carried : Option Bytes)
  /-- A patch up to its read: the offset it names, its bytes, and the length
  it declares. -/
  | read (r : Nat) (offset : Option Nat) (bytes : Bytes) (declared : Option Nat)
  | write (r : Nat) (outcome : Outcome)
  deriving DecidableEq

def setAt {α : Type} (f : Nat → Option α) (k : Nat) (v : Option α) : Nat → Option α :=
  fun n => if n = k then v else f n

/-- The parts up to this one, joined. -/
def joined (blobs : Nat → Option Bytes) (parts : Nat) : Bytes :=
  (List.range (parts + 1)).flatMap fun part => (blobs part).getD []

/-- One request's worth of bytes, and the object when they were the last. -/
def accept (s : State) (p : Patch) (outcome : Outcome) : State :=
  let length := p.later.or p.upload.length
  let arriving := p.upload.offset + p.bytes.length
  let row := if p.creating then some p.upload else s.row
  if length.any fun length => decide (length < arriving) then
    -- Refused, which commits what the transaction did before.
    { s with row }
  else if outcome = .putFails then s
  else
    let s := { s with blobs := setAt s.blobs p.upload.parts (some p.bytes) }
    let row := row.map fun held => { offset := arriving, length, parts := held.parts + 1 }
    let acked := s.acked ++ [⟨p.upload.offset, p.bytes⟩]
    if outcome = .rowFails then s
    else if length = some arriving then
      match outcome with
      | .getFails => s
      | .writeFails => s
      | .refused => { s with row }
      | _ =>
        let object := some (joined s.blobs p.upload.parts)
        let blobs := fun part => if part ≤ p.upload.parts then none else s.blobs part
        { s with row, object, blobs, acked }
    else { s with row, acked }

/-- A patch up to its read: refused, or pending with what it read. -/
def patch (s : State) (r : Nat) (offset : Option Nat) (bytes : Bytes)
    (declared : Option Nat) : State :=
  match s.row with
  | none => s
  | some upload =>
    if upload.length = some upload.offset then s
    else if offset ≠ some upload.offset then s
    else
      let later := if upload.length = none then declared else none
      { s with pending := setAt s.pending r (some ⟨upload, bytes, later, false⟩) }

def next (s : State) : Act → Option State
  | .create r asked carried =>
    if s.created || asked.any fun length => decide (MAX_SIZE < length) then none
    else
      let upload : Upload := ⟨0, asked, 0⟩
      match carried with
      | none => some { s with created := true, row := some upload }
      | some bytes =>
        let pending := setAt s.pending r (some ⟨upload, bytes, none, true⟩)
        some { s with created := true, pending }
  | .read r offset bytes declared =>
    if (s.pending r).isSome then none else some (patch s r offset bytes declared)
  | .write r outcome =>
    match s.pending r with
    | none => none
    | some p =>
      let s := accept s p outcome
      some { s with pending := setAt s.pending r none }

/-! ## What an upload promises -/

/-- The bodies in the order of their offsets. -/
def inOrder (acked : List Ack) : List Ack :=
  acked.mergeSort fun a b => decide (a.offset ≤ b.offset)

def Ack.Covers (a : Ack) (n : Nat) : Prop := a.offset ≤ n ∧ n < a.answer

structure Promise (s : State) : Prop where
  object : ∀ bytes, s.object = some bytes → bytes = (inOrder s.acked).flatMap Ack.body ∧
    ∃ upload, s.row = some upload ∧ upload.length = some bytes.length
  ascending : s.acked.Pairwise fun a b => a.answer ≤ b.answer
  disjoint : s.acked.Pairwise fun a b => ∀ n, ¬ (a.Covers n ∧ b.Covers n)
  finished : ∀ upload, s.row = some upload → upload.length = some upload.offset →
    s.object.isSome

/-- The steps that keep it: an empty upload brings its empty body, a write
finds the row as its read left it, and the object is not refused. -/
def Sound (s : State) : Act → Prop
  | .create _ asked carried => asked = some 0 → carried = some []
  | .read .. => True
  | .write r outcome => outcome ≠ .refused ∧
      ∀ p, s.pending r = some p → p.creating = false → s.row = some p.upload

end Zou.Tus
