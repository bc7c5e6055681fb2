import Zou.SegmentCodec

/-!
# The bytes of a sealed segment

One consolidation round: a header, the frames sorted by tenant and lsn, a
footer body with a filter over the tenants and the chunks of each tenant,
and a tail. A frame joins the last chunk of its tenant while the chunk
stays within the target and opens a chunk otherwise. Readers fetch single
chunks by the offsets of the footer, so the decoder takes no chunk that
leaves the region of the frames.
-/

namespace Zou

namespace Wire

open Bytes Outcome

def sealedMagic : List UInt8 := [90, 83, 76, 68]

def sealedFooterMagic : List UInt8 := [90, 83, 76, 70]

def sealedVersion : Nat := 1

def sealedChunkTarget : Nat := 2 ^ 20

def tenantFixedLen : Nat := 16 + 4 + 4

def chunkLen : Nat := 8 + 8 + 8 + 8

structure SealedHeader where
  shard : Nat
  firstSeq : Nat
  lastSeq : Nat
  deriving DecidableEq, Repr

structure SealedChunk where
  minLsn : Lsn
  maxLsn : Lsn
  offset : Nat
  len : Nat
  deriving DecidableEq, Repr

structure SealedTenant where
  tenant : Nat
  frames : Nat
  chunks : List SealedChunk
  deriving DecidableEq, Repr

structure SealedFooter where
  frameCount : Nat
  bloom : Bloom
  tenants : List SealedTenant
  deriving DecidableEq, Repr

inductive SealedBuildError where
  | unsorted
  deriving DecidableEq, Repr

/-! ## The filter -/

namespace TenantBloom

variable (crc : Nat → List UInt8 → Nat)

/-- The pair a tenant hashes to. -/
def hash (tenant : Nat) : UInt64 × UInt64 :=
  (UInt64.ofNat (crc 0 (le 16 tenant)), UInt64.ofNat (crc 0x5EED (le 16 tenant)) ||| 1)

def insert (b : Bloom) (tenant : Nat) : Bloom :=
  ⟨(Bloom.probes (hash crc tenant) b.bits.length).foldl (fun bits p => bits.set p true) b.bits⟩

def mayContain (b : Bloom) (tenant : Nat) : Bool := b.mayContain (hash crc tenant)

/-- The filter over some tenants. -/
def «over» (tenants : List Nat) : Bloom := tenants.foldl (insert crc) (Bloom.sizedFor tenants.length)

end TenantBloom

/-! ## Building -/

/-- `b` may not come after `a`. -/
def before (b a : Frame2) : Bool :=
  b.tenant.toNat < a.tenant.toNat
    || (b.tenant.toNat = a.tenant.toNat && b.startLsn.toNat < a.startLsn.toNat)

def unsorted (frames : List Frame2) : Bool :=
  (frames.zip frames.tail).any fun w => before w.2 w.1

structure SealedBuilder where
  buf : List UInt8
  tenants : List SealedTenant

def sealedHeader (h : SealedHeader) : List UInt8 :=
  sealedMagic ++ (le 2 sealedVersion ++ (le 2 0 ++ (le 4 h.shard ++ (le 8 h.firstSeq
    ++ le 8 h.lastSeq))))

/-- The chunks of a tenant when a frame of `len` bytes comes at `offset`. -/
def pushChunk (target : Nat) (chunks : List SealedChunk) (f : Frame2) (offset len : Nat) :
    List SealedChunk :=
  match chunks.getLast? with
  | some c =>
    if c.len + len ≤ target then
      chunks.dropLast ++ [{ c with maxLsn := max c.maxLsn f.endLsn.toNat, len := c.len + len }]
    else chunks ++ [⟨f.startLsn.toNat, f.endLsn.toNat, offset, len⟩]
  | none => chunks ++ [⟨f.startLsn.toNat, f.endLsn.toNat, offset, len⟩]

namespace SealedBuilder

/-- The tenants with that of a frame last. -/
def openTenant (tenants : List SealedTenant) (tenant : Nat) : List SealedTenant :=
  if tenants.getLast?.map (fun t => t.tenant) ≠ some tenant then tenants ++ [⟨tenant, 0, []⟩]
  else tenants

def push (target : Nat) (b : SealedBuilder) (f : Frame2) (wire : List UInt8) : SealedBuilder :=
  let tenants := openTenant b.tenants f.tenant.toNat
  { buf := b.buf ++ wire
    tenants := match tenants.getLast? with
      | some t => tenants.dropLast ++ [{ t with
          frames := (t.frames + 1) % 2 ^ 32
          chunks := pushChunk target t.chunks f b.buf.length wire.length }]
      | none => tenants }

variable (p : WirePacking)

def pushFrames {ε : Type} (target : Nat) (b : SealedBuilder) (frames : List Frame2) :
    Outcome ε SealedBuilder :=
  frames.foldlM (fun b f => do
    let wire ← f.encode p
    pure (b.push target f wire)) b

end SealedBuilder

def chunkBytes (c : SealedChunk) : List UInt8 :=
  le 8 c.minLsn ++ (le 8 c.maxLsn ++ (le 8 c.offset ++ le 8 c.len))

def tenantBytes (t : SealedTenant) : List UInt8 :=
  le 16 t.tenant ++ (le 4 t.frames ++ (le 4 t.chunks.length ++ t.chunks.flatMap chunkBytes))

/-- The footer body. -/
def sealedFooter (f : SealedFooter) : List UInt8 :=
  le 4 f.bloom.bytes.length ++ (f.bloom.bytes ++ (le 4 f.tenants.length
    ++ (f.tenants.flatMap tenantBytes ++ le 4 f.frameCount)))

def buildSealed (p : WirePacking) (header : SealedHeader) (frames : List Frame2) (target : Nat) :
    Outcome SealedBuildError (List UInt8 × SealedFooter) := do
  reject (unsorted frames = true) .unsorted
  let b ← SealedBuilder.pushFrames p target ⟨sealedHeader header, []⟩ frames
  let footer : SealedFooter := {
    frameCount := frames.length % 2 ^ 32
    bloom := TenantBloom.over p.crc (b.tenants.map fun t => t.tenant)
    tenants := b.tenants }
  pure (close p sealedFooterMagic b.buf (sealedFooter footer), footer)

/-! ## Parsing -/

def parseSealedHeader (buf : List UInt8) : Outcome SegmentDecodeError SealedHeader := do
  reject (buf.length < headerLen + tailLen) (.truncated buf.length (headerLen + tailLen))
  let magic ← range buf 0 4
  reject (magic ≠ sealedMagic) .badMagic
  let version := ofLe (← range buf 4 6)
  reject (version ≠ sealedVersion) (.unsupportedVersion version)
  let shard ← range buf 8 12
  let firstSeq ← range buf 12 20
  let lastSeq ← range buf 20 28
  pure ⟨ofLe shard, ofLe firstSeq, ofLe lastSeq⟩

def parseChunk (footerStart : Nat) (b : List UInt8) :
    Outcome SegmentDecodeError (SealedChunk × List UInt8) := do
  let (c, b) ← take chunkLen b
  let minLsn ← range c 0 8
  let maxLsn ← range c 8 16
  let offset := ofLe (← range c 16 24)
  let len := ofLe (← range c 24 32)
  -- a chunk must land inside the region of the frames, and its end inside a `u64`
  reject (offset < headerLen ∨ offset + len ≥ 2 ^ 64 ∨ offset + len > footerStart) .corrupt
  pure (⟨ofLe minLsn, ofLe maxLsn, offset, len⟩, b)

def parseTenant (footerStart : Nat) (b : List UInt8) :
    Outcome SegmentDecodeError (SealedTenant × List UInt8) := do
  let (fixed, b) ← take tenantFixedLen b
  let chunkCount := ofLe (← range fixed 20 24)
  reject (chunkCount > b.length / chunkLen) .corrupt
  let (chunks, b) ← many (parseChunk footerStart) chunkCount b
  let tenant ← range fixed 0 16
  let frames ← range fixed 16 20
  pure (⟨ofLe tenant, ofLe frames, chunks⟩, b)

def parseSealedFooter (body : List UInt8) (footerStart : Nat) :
    Outcome SegmentDecodeError SealedFooter := do
  let (bloomLen, b) ← take 4 body
  reject (ofLe bloomLen > b.length ∨ ¬ (ofLe bloomLen).isPowerOfTwo ∨ ofLe bloomLen < 64) .corrupt
  let (bits, b) ← take (ofLe bloomLen) b
  let (tenantCount, b) ← take 4 b
  reject (ofLe tenantCount > b.length / tenantFixedLen) .corrupt
  let (tenants, b) ← many (parseTenant footerStart) (ofLe tenantCount) b
  let (frameCount, b) ← take 4 b
  reject (b ≠ []) .corrupt
  pure ⟨ofLe frameCount, ⟨bits.flatMap unpackByte⟩, tenants⟩

variable (p : WirePacking)

/-- Header and footer, and where the footer starts. -/
def parseSealedShell (buf : List UInt8) :
    Outcome SegmentDecodeError (SealedHeader × SealedFooter × Nat) := do
  let header ← parseSealedHeader buf
  let (body, footerStart) ← footerBody p sealedFooterMagic buf
  let footer ← parseSealedFooter body footerStart
  pure (header, footer, footerStart)

def decodeSealed (buf : List UInt8) :
    Outcome SegmentDecodeError (SealedHeader × List Frame2 × SealedFooter) := do
  let (header, footer, footerStart) ← parseSealedShell p buf
  let region ← range buf headerLen footerStart
  let frames ← readFrames p region
  reject (frames.length ≠ footer.frameCount) .corrupt
  pure (header, frames, footer)

end Wire

end Zou
