import Zou.LayerCodec
import Zou.Lib.Outcome

/-!
# The bytes of a frame

The unit of the shared WAL on the wire: a header of fixed fields with a crc
over everything after it, the block hints when there are any, and the
payload, as lz4 leaves it when that is shorter and raw otherwise. The
decoder reads bytes it does not trust, and every index into them is one
that can panic. `Frame2Stream` walks the frames of a region one behind the
other and ends at the first error.

`WirePacking` adds the largest output lz4 may need to the libraries of the
layer objects.
-/

namespace Zou

structure WirePacking extends LayerPacking where
  /-- `get_maximum_output_size`. -/
  maxOutput : Nat → Nat

structure WirePacking.Lawful (p : WirePacking) : Prop extends p.toLayerPacking.Lawful where
  le_maxOutput : ∀ n, n ≤ p.maxOutput n

namespace Wire

open Bytes Outcome

def frameHeaderLen : Nat := 49

def crcEnd : Nat := 8

def maxPayloadLen : Nat := 64 * 1024 * 1024

def maxHints : Nat := 4096

def flagContainsCommit : UInt8 := 1

def flagFirstOfEpoch : UInt8 := 2

def flagHints : UInt8 := 4

def flagUncompressed : UInt8 := 8

def flagKnown : UInt8 :=
  flagContainsCommit ||| flagFirstOfEpoch ||| flagHints ||| flagUncompressed

def hintLen : Nat := 9

structure BlockRef where
  relfilenode : UInt32
  fork : UInt8
  block : UInt32
  deriving DecidableEq, Repr

structure Frame2 where
  tenant : BitVec 128
  writerEpoch : UInt32
  startLsn : UInt64
  endLsn : UInt64
  containsCommit : Bool
  firstOfEpoch : Bool
  hints : List BlockRef
  payload : List UInt8
  deriving DecidableEq, Repr

inductive Frame2DecodeError where
  | truncated (have_ need : Nat)
  | badLength (len : UInt32)
  | unknownFlags (bits : UInt8)
  | payloadTooLarge (len : UInt32)
  | tooManyHints (count : UInt16)
  | corrupt
  | badCompression
  deriving DecidableEq, Repr

namespace BlockRef

def bytes (h : BlockRef) : List UInt8 :=
  le 4 h.relfilenode.toNat ++ (h.fork :: le 4 h.block.toNat)

end BlockRef

namespace Frame2

variable (p : WirePacking)

/-- What the two asserts of the encoder ask for. -/
def Encodable (f : Frame2) : Prop := f.payload.length ≤ maxPayloadLen ∧ f.hints.length ≤ maxHints

instance (f : Frame2) : Decidable f.Encodable := inferInstanceAs (Decidable (_ ∧ _))

/-- Whether the body is raw, and the body. -/
def packed (payload : List UInt8) : Bool × List UInt8 :=
  if (p.compress payload).length < payload.length then (false, p.compress payload)
  else (true, payload)

def flags (contains_commit first_of_epoch hinted raw : Bool) : UInt8 :=
  (if contains_commit then flagContainsCommit else 0) |||
  (if first_of_epoch then flagFirstOfEpoch else 0) |||
  (if hinted then flagHints else 0) |||
  (if raw then flagUncompressed else 0)

/-- The hint table, which is there when there are hints. -/
def hintBytes (hints : List BlockRef) : List UInt8 :=
  if hints.isEmpty then [] else le 2 hints.length ++ hints.flatMap BlockRef.bytes

/-- What the crc is over. -/
def covered (f : Frame2) : List UInt8 :=
  le 16 f.tenant.toNat ++ (le 4 f.writerEpoch.toNat ++ (le 8 f.startLsn.toNat
    ++ (le 8 f.endLsn.toNat
    ++ (flags f.containsCommit f.firstOfEpoch (! f.hints.isEmpty) (packed p f.payload).1
    :: (le 4 f.payload.length ++ (hintBytes f.hints ++ (packed p f.payload).2))))))

/-- The frame in wire form. -/
def wire (f : Frame2) : List UInt8 :=
  let total := frameHeaderLen + (hintBytes f.hints).length + (packed p f.payload).2.length
  le 4 total ++ (le 4 (p.crc 0 (f.covered p)) ++ f.covered p)

def encode {ε : Type} (f : Frame2) : Outcome ε (List UInt8) :=
  if f.Encodable then .ok (f.wire p) else .panicked

/-- `count` hints, and where they end. -/
def readHints (buf : List UInt8) : Nat → Nat →
    Outcome Frame2DecodeError (List BlockRef × Nat)
  | 0, at_ => pure ([], at_)
  | count + 1, at_ => do
      let relfilenode ← range buf at_ (at_ + 4)
      let fork ← index buf (at_ + 4)
      let block ← range buf (at_ + 5) (at_ + 9)
      let (hints, end_) ← readHints buf count (at_ + hintLen)
      pure (⟨UInt32.ofNat (ofLe relfilenode), fork, UInt32.ofNat (ofLe block)⟩ :: hints, end_)

/-- The hint table of a frame of `total` bytes, and where it ends. -/
def decodeHints (buf : List UInt8) (total : Nat) (flags : UInt8) :
    Outcome Frame2DecodeError (List BlockRef × Nat) :=
  if flags &&& flagHints ≠ 0 then do
    reject (total < frameHeaderLen + 2) .corrupt
    let count := UInt16.ofNat (ofLe (← range buf frameHeaderLen (frameHeaderLen + 2)))
    reject (count.toNat > maxHints) (.tooManyHints count)
    reject (total < frameHeaderLen + 2 + count.toNat * hintLen) .corrupt
    readHints buf count.toNat (frameHeaderLen + 2)
  else pure ([], frameHeaderLen)

def unpack (flags : UInt8) (payloadLen : Nat) (body : List UInt8) :
    Outcome Frame2DecodeError (List UInt8) :=
  if flags &&& flagUncompressed ≠ 0 then
    if body.length ≠ payloadLen then .err .badCompression else .ok body
  else match p.decompress body payloadLen with
    | some payload => if payload.length = payloadLen then .ok payload else .err .badCompression
    | none => .err .badCompression

/-- The longest frame the decoder believes in. -/
def maxLen : Nat := frameHeaderLen + 2 + maxHints * hintLen + p.maxOutput maxPayloadLen

/-- One frame from the front of `buf`, and the bytes it takes. -/
def decode (buf : List UInt8) : Outcome Frame2DecodeError (Frame2 × Nat) := do
  reject (buf.length < frameHeaderLen) (.truncated buf.length frameHeaderLen)
  let len := UInt32.ofNat (ofLe (← range buf 0 4))
  -- the length bounds every later read, so it is checked before anything else is trusted
  reject (len.toNat < frameHeaderLen ∨ len.toNat > maxLen p) (.badLength len)
  let total := len.toNat
  reject (buf.length < total) (.truncated buf.length total)
  let storedCrc := ofLe (← range buf 4 8)
  let covered ← range buf crcEnd total
  reject (p.crc 0 covered ≠ storedCrc) .corrupt
  let tenant ← range buf 8 24
  let writerEpoch ← range buf 24 28
  let startLsn ← range buf 28 36
  let endLsn ← range buf 36 44
  let flags ← index buf 44
  reject (flags &&& ~~~ flagKnown ≠ 0) (.unknownFlags (flags &&& ~~~ flagKnown))
  let payloadLen := UInt32.ofNat (ofLe (← range buf 45 49))
  reject (payloadLen.toNat > maxPayloadLen) (.payloadTooLarge payloadLen)
  let (hints, at_) ← decodeHints buf total flags
  let body ← range buf at_ total
  let payload ← unpack p flags payloadLen.toNat body
  pure ({
    tenant := BitVec.ofNat 128 (ofLe tenant)
    writerEpoch := UInt32.ofNat (ofLe writerEpoch)
    startLsn := UInt64.ofNat (ofLe startLsn)
    endLsn := UInt64.ofNat (ofLe endLsn)
    containsCommit := flags &&& flagContainsCommit ≠ 0
    firstOfEpoch := flags &&& flagFirstOfEpoch ≠ 0
    hints := hints
    payload := payload }, total)

end Frame2

namespace Frame2Stream

variable (p : WirePacking)

/-- The next item and what is left to walk; an error ends the walk. -/
def next {ε : Type} (buf : List UInt8) :
    Outcome ε (Option (Except Frame2DecodeError Frame2) × List UInt8) :=
  if buf.isEmpty then .ok (none, buf) else
  match Frame2.decode p buf with
  | .ok (frame, consumed) => do
      let rest ← range buf consumed buf.length
      pure (some (.ok frame), rest)
  | .err e => .ok (some (.error e), [])
  | .panicked => .panicked

/-- The items of the walk, when `fuel` calls are enough to reach its end. -/
def collect {ε : Type} : Nat → List UInt8 →
    Outcome ε (Option (List (Except Frame2DecodeError Frame2)))
  | 0, _ => pure none
  | fuel + 1, buf => do
      let (item, rest) ← next p buf
      match item with
      | none => pure (some [])
      | some item =>
        let items ← collect fuel rest
        pure (items.map (item :: ·))

/-- The whole walk. An item takes a byte at least. -/
def walk {ε : Type} (buf : List UInt8) :
    Outcome ε (Option (List (Except Frame2DecodeError Frame2))) :=
  collect p (buf.length + 1) buf

end Frame2Stream

end Wire

end Zou
