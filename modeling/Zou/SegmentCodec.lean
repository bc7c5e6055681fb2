import Zou.Frame
import Zou.Segment

/-!
# The bytes of a landing segment

A header, the frames of one batch window as they came, a footer body with a
summary a tenant, and a tail: the length of the body, a crc over the header
and the body, and a magic. A summary has the byte runs of the tenant's
frames; a frame that follows one of its tenant makes the last run longer
and any other opens a run. The counts are of four bytes and wrap, the
lengths are cut to four bytes.

`close`, `footerBody`, `take` and `readFrames` are what this codec shares
with the one of sealed segments.
-/

namespace Zou

namespace Wire

open Bytes Outcome

/-- What either segment decoder reports; a sealed segment has no kind. -/
inductive SegmentDecodeError where
  | truncated (have_ need : Nat)
  | badMagic
  | unsupportedVersion (found : Nat)
  | unknownKind (found : Nat)
  | corrupt
  | frame (index : Nat) (source : Frame2DecodeError)
  deriving DecidableEq, Repr

/-- Magic, version, two bytes more, the shard and two numbers. -/
def headerLen : Nat := 4 + 2 + 2 + 4 + 8 + 8

/-! ## Shells -/

section Shell

variable (p : WirePacking) (magic : List UInt8)

/-- Close an object of which the header and the frames are written. -/
def close (buf body : List UInt8) : List UInt8 :=
  let footerLen := body.length % 2 ^ 32
  buf ++ (body ++ (le 4 footerLen
    ++ (le 4 (p.crc (p.crc 0 (buf.take headerLen)) (body.take footerLen)) ++ magic)))

/-- The footer body of an object that is long enough, and where it starts. -/
def footerBody (buf : List UInt8) : Outcome SegmentDecodeError (List UInt8 × Nat) := do
  let found ← range buf (buf.length - 4) buf.length
  reject (found ≠ magic) .badMagic
  let tailAt := buf.length - tailLen
  let footerLen := ofLe (← range buf tailAt (tailAt + 4))
  let storedCrc := ofLe (← range buf (tailAt + 4) (tailAt + 8))
  reject (footerLen > tailAt - headerLen) .corrupt
  let footerStart := tailAt - footerLen
  let head ← range buf 0 headerLen
  let body ← range buf footerStart tailAt
  reject (p.crc (p.crc 0 head) body ≠ storedCrc) .corrupt
  pure (body, footerStart)

/-- The next `n` bytes of a body, and what follows. -/
def take (n : Nat) (b : List UInt8) : Outcome SegmentDecodeError (List UInt8 × List UInt8) :=
  if n ≤ b.length then .ok (b.take n, b.drop n) else .err .corrupt

/-- The frames of a walk up to its first error. -/
def gather (frames : List Frame2) : List (Except Frame2DecodeError Frame2) →
    Outcome SegmentDecodeError (List Frame2)
  | [] => .ok frames
  | .ok frame :: items => gather (frames ++ [frame]) items
  | .error source :: _ => .err (.frame frames.length source)

/-- The frames of a region. -/
def readFrames (region : List UInt8) : Outcome SegmentDecodeError (List Frame2) := do
  match ← Frame2Stream.walk p region with
  | some items => gather [] items
  | none => .panicked -- the walk has calls enough

end Shell

/-! ## Building -/

def segmentMagic : List UInt8 := [90, 83, 69, 71]

def footerMagic : List UInt8 := [90, 83, 71, 70]

def segmentVersion : Nat := 1

def summaryFixedLen : Nat := 16 + 8 + 8 + 4 + 4

def runLen : Nat := 8 + 8

/-- One contiguous byte range of a tenant's frames. -/
structure TenantRun where
  offset : Nat
  len : Nat
  deriving DecidableEq, Repr

structure TenantSummary extends Zou.TenantSummary where
  runs : List TenantRun
  deriving DecidableEq, Repr

structure Footer where
  frameCount : Nat
  tenants : List TenantSummary
  deriving DecidableEq, Repr

structure SummaryAcc where
  minLsn : Lsn
  maxLsn : Lsn
  frames : Nat
  runs : List TenantRun
  deriving DecidableEq, Repr

structure SegmentBuilder where
  buf : List UInt8
  tenants : OrdMap Nat SummaryAcc
  frameCount : Nat

def kindCode : SegmentKind → Nat
  | .landing => 0
  | .seal => 1

def segmentHeader (h : SegmentHeader) : List UInt8 :=
  segmentMagic ++ (le 2 segmentVersion ++ (le 2 (kindCode h.kind) ++ (le 4 h.shard
    ++ (le 8 h.seq ++ le 8 h.prevDigest))))

/-- The runs of a tenant when `len` bytes of it come at `offset`. -/
def pushRun (runs : List TenantRun) (offset len : Nat) : List TenantRun :=
  match runs.getLast? with
  | some run =>
    if run.offset + run.len = offset then runs.dropLast ++ [⟨run.offset, run.len + len⟩]
    else runs ++ [⟨offset, len⟩]
  | none => runs ++ [⟨offset, len⟩]

namespace SegmentBuilder

def new (header : SegmentHeader) : SegmentBuilder := ⟨segmentHeader header, OrdMap.empty, 0⟩

def pushEncoded (b : SegmentBuilder) (tenant : Nat) (startLsn endLsn : Lsn) (wire : List UInt8) :
    SegmentBuilder :=
  let acc := (b.tenants.get? tenant).getD ⟨startLsn, endLsn, 0, []⟩
  { buf := b.buf ++ wire
    frameCount := (b.frameCount + 1) % 2 ^ 32
    tenants := b.tenants.insert tenant {
      minLsn := min acc.minLsn startLsn
      maxLsn := max acc.maxLsn endLsn
      frames := (acc.frames + 1) % 2 ^ 32
      runs := pushRun acc.runs b.buf.length wire.length } }

def runBytes (r : TenantRun) : List UInt8 := le 8 r.offset ++ le 8 r.len

def summaryBytes (t : TenantSummary) : List UInt8 :=
  le 16 t.tenant ++ (le 8 t.minLsn ++ (le 8 t.maxLsn ++ (le 4 t.frames ++ (le 4 t.runs.length
    ++ t.runs.flatMap runBytes))))

/-- The footer body. -/
def footer (f : Footer) : List UInt8 :=
  le 4 f.tenants.length ++ (f.tenants.flatMap summaryBytes ++ le 4 f.frameCount)

def summary (e : Nat × SummaryAcc) : TenantSummary where
  tenant := e.1
  minLsn := e.2.minLsn
  maxLsn := e.2.maxLsn
  frames := e.2.frames
  runs := e.2.runs

def summaries (b : SegmentBuilder) : List TenantSummary := b.tenants.entries.map summary

def finish (p : WirePacking) (b : SegmentBuilder) : List UInt8 × List TenantSummary :=
  (close p footerMagic b.buf (footer ⟨b.frameCount, b.summaries⟩), b.summaries)

/-- A builder with encoded frames. -/
def pushFrames (p : WirePacking) (b : SegmentBuilder) (frames : List Frame2) : SegmentBuilder :=
  frames.foldl (fun b f =>
    b.pushEncoded f.tenant.toNat f.startLsn.toNat f.endLsn.toNat (f.wire p)) b

end SegmentBuilder

/-! ## Parsing -/

def parseKind : Nat → Outcome SegmentDecodeError SegmentKind
  | 0 => .ok .landing
  | 1 => .ok .seal
  | found => .err (.unknownKind found)

def parseHeader (buf : List UInt8) : Outcome SegmentDecodeError SegmentHeader := do
  reject (buf.length < headerLen + tailLen) (.truncated buf.length (headerLen + tailLen))
  let magic ← range buf 0 4
  reject (magic ≠ segmentMagic) .badMagic
  let version := ofLe (← range buf 4 6)
  reject (version ≠ segmentVersion) (.unsupportedVersion version)
  let kind ← parseKind (ofLe (← range buf 6 8))
  let shard ← range buf 8 12
  let seq ← range buf 12 20
  let prevDigest ← range buf 20 28
  pure ⟨kind, ofLe shard, ofLe seq, ofLe prevDigest⟩

def parseRun (b : List UInt8) : Outcome SegmentDecodeError (TenantRun × List UInt8) := do
  let (r, b) ← take runLen b
  let offset ← range r 0 8
  let len ← range r 8 16
  pure (⟨ofLe offset, ofLe len⟩, b)

def parseSummary (b : List UInt8) : Outcome SegmentDecodeError (TenantSummary × List UInt8) := do
  let (fixed, b) ← take summaryFixedLen b
  let runCount := ofLe (← range fixed 36 40)
  reject (runCount > b.length / runLen) .corrupt
  let (runs, b) ← many parseRun runCount b
  let tenant ← range fixed 0 16
  let minLsn ← range fixed 16 24
  let maxLsn ← range fixed 24 32
  let frames ← range fixed 32 36
  pure (⟨⟨ofLe tenant, ofLe minLsn, ofLe maxLsn, ofLe frames⟩, runs⟩, b)

def parseFooter (body : List UInt8) : Outcome SegmentDecodeError Footer := do
  let (tenantCount, b) ← take 4 body
  -- a lying count is caught before anything is reserved for it
  reject (ofLe tenantCount > body.length / summaryFixedLen) .corrupt
  let (tenants, b) ← many parseSummary (ofLe tenantCount) b
  let (frameCount, b) ← take 4 b
  reject (b ≠ []) .corrupt
  pure ⟨ofLe frameCount, tenants⟩

variable (p : WirePacking)

/-- Header and footer, and where the footer starts. -/
def parseShell (buf : List UInt8) : Outcome SegmentDecodeError (SegmentHeader × Footer × Nat) := do
  let header ← parseHeader buf
  let (body, footerStart) ← footerBody p footerMagic buf
  let footer ← parseFooter body
  pure (header, footer, footerStart)

def decodeSegment (buf : List UInt8) :
    Outcome SegmentDecodeError (SegmentHeader × List Frame2 × Footer) := do
  let (header, footer, footerStart) ← parseShell p buf
  let region ← range buf headerLen footerStart
  let frames ← readFrames p region
  reject (frames.length ≠ footer.frameCount) .corrupt
  pure (header, frames, footer)

end Wire

end Zou
