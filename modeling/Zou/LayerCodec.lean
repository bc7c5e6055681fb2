import Mathlib.Data.List.GetD
import Zou.Lib.Bytes
import Zou.LayerSpec

/-!
# The bytes of a layer object

The header, the blocks one behind the other, the footer body with an index
row for each block and the filter, and the tail: the length of the body, a
crc over the header and the body, and a magic. The encoder takes the
entries one by one and closes a block when the next entry would take it
over the target. A block is stored as lz4 leaves it when that is shorter
and raw otherwise. The lengths of the footer are written in four bytes,
cut to them.

`LayerPacking` stands for the lz4 and crc libraries; `crc` is
`crc32c_append`, which from zero is `crc32c`.
-/

namespace Zou

open Bytes

structure LayerPacking where
  compress : List UInt8 → List UInt8
  decompress : List UInt8 → Nat → Option (List UInt8)
  crc : Nat → List UInt8 → Nat

/-- What the codec relies on: a crc is a `u32`, and decompressing what was
compressed gives it back. -/
structure LayerPacking.Lawful (p : LayerPacking) : Prop where
  crc_lt : ∀ c b, p.crc c b < 2 ^ 32
  decompress_compress : ∀ raw, p.decompress (p.compress raw) raw.length = some raw

inductive CodecError where
  | truncated (have_ need : Nat)
  | badMagic
  | unsupportedVersion (found : Nat)
  | wrongKind (expected found : LayerKind)
  | corrupt
  | block (index : Nat)
  deriving DecidableEq, Repr

def layerMagic : List UInt8 := [90, 76, 89, 82]

def layerFooterMagic : List UInt8 := [90, 76, 89, 70]

def layerVersion : Nat := 1

def tailLen : Nat := 4 + 4 + 4

def blockMetaLen : Nat := keyEncodedLen * 2 + 8 + 4 + 4 + 4 + 4 + 1

def bloomMinBytes : Nat := 64

/-- How a block is stored. -/
def layerEncRaw : Nat := 0

def layerEncLz4 : Nat := 1

/-- An index row with the crc and the encoding of its block. -/
structure IndexRow extends LayerBlock where
  crc : Nat
  enc : Nat
  deriving DecidableEq, Repr

structure CodedFooter where
  kind : LayerKind
  minKey : LayerKey
  maxKey : LayerKey
  minLsn : Lsn
  maxLsn : Lsn
  entryCount : Nat
  blocks : List IndexRow
  bloom : Bloom
  deriving DecidableEq, Repr

/-- The footer without the crcs and encodings of its rows. -/
def CodedFooter.plain (f : CodedFooter) : LayerFooter where
  kind := f.kind
  minKey := f.minKey
  maxKey := f.maxKey
  minLsn := f.minLsn
  maxLsn := f.maxLsn
  entryCount := f.entryCount
  blocks := f.blocks.map IndexRow.toLayerBlock
  bloom := f.bloom

def CodedFooter.mayContain (crc : Nat → List UInt8 → Nat) (f : CodedFooter) (key : LayerKey) :
    Bool :=
  f.bloom.mayContain (Bloom.hash crc key)

def CodedFooter.locate (f : CodedFooter) (key : LayerKey) : List IndexRow :=
  BlockIndex.locate (fun r => r.firstKey) (fun r => r.lastKey) f.blocks key

/-! ## Keys and filters as bytes -/

def LayerKey.decode (b : List UInt8) : LayerKey where
  kind := ofLe (slice b 0 1)
  spc := ofLe (slice b 1 4)
  db := ofLe (slice b 5 4)
  rel := ofLe (slice b 9 4)
  fork := ofLe (slice b 13 1)
  block := ofLe (slice b 14 4)

/-- Eight bits, the first the lowest. -/
def packByte (b : List Bool) : UInt8 := UInt8.ofNat (b.foldr (fun x n => x.toNat + 2 * n) 0)

def packBits : List Bool → List UInt8
  | b₀ :: b₁ :: b₂ :: b₃ :: b₄ :: b₅ :: b₆ :: b₇ :: rest =>
    packByte [b₀, b₁, b₂, b₃, b₄, b₅, b₆, b₇] :: packBits rest
  | _ => []

def unpackByte (b : UInt8) : List Bool := (List.range 8).map b.toNat.testBit

namespace Bloom

def bytes (b : Bloom) : List UInt8 := packBits b.bits

/-- Adopt bits read back, of a size the builder can have produced. -/
def fromBits (bits : List UInt8) : Option Bloom :=
  if ¬ bits.length.isPowerOfTwo ∨ bits.length < bloomMinBytes then none
  else some ⟨bits.flatMap unpackByte⟩

end Bloom

/-! ## Building -/

/-- What the two encoders differ in: the kind, the entry as bytes, whether
a key is hashed again, and the lsn bounds. -/
structure Coding (E : Type) where
  fmt : EntryFormat E
  kind : LayerKind
  bytes : E → List UInt8
  hashed : Option E → E → Bool
  lsns : Lsn × Lsn
  note : Lsn × Lsn → E → Lsn × Lsn

def deltaCoding : Coding DeltaEntry where
  fmt := deltaFormat
  kind := .delta
  bytes e := e.key.encode ++ (le 8 e.lsn ++ (le 4 e.record.length ++ e.record))
  hashed last e := last.all fun p => p.key ≠ e.key
  lsns := (u64Max, 0)
  note b e := (min b.1 e.lsn, max b.2 e.lsn)

def imageCoding (lsn : Lsn) : Coding ImageEntry where
  fmt := imageFormat lsn
  kind := .image
  bytes e := e.key.encode ++ e.page
  hashed _ _ := true
  lsns := (lsn, lsn)
  note b _ := b

/-- The entries of a block as raw bytes. -/
def bodyBytes : BlockBody → List UInt8
  | .delta es => es.flatMap deltaCoding.bytes
  | .image es => es.flatMap (imageCoding 0).bytes

structure LayerBuilder (E : Type) where
  buf : List UInt8
  blocks : List IndexRow
  hashes : List (UInt64 × UInt64)
  raw : List UInt8
  first : LayerKey
  last : Option E
  count : Nat
  total : Nat
  lsns : Lsn × Lsn

def kindByte : LayerKind → UInt8
  | .delta => 0
  | .image => 1

def header (kind : LayerKind) : List UInt8 :=
  layerMagic ++ (le 2 layerVersion ++ [kindByte kind, 0])

namespace LayerPacking

variable (p : LayerPacking)

/-- The encoding of a block and its bytes as stored. -/
def packed (raw : List UInt8) : Nat × List UInt8 :=
  if (p.compress raw).length < raw.length then (layerEncLz4, p.compress raw) else (layerEncRaw, raw)

/-- The length of a block as stored. -/
def storedLen (body : BlockBody) : Nat := (p.packed (bodyBytes body)).2.length

def indexRow (offset : Nat) (raw : List UInt8) (firstKey lastKey : LayerKey) (entries : Nat) :
    IndexRow where
  firstKey := firstKey
  lastKey := lastKey
  offset := offset
  len := (p.packed raw).2.length
  rawLen := raw.length
  entries := entries
  crc := p.crc 0 (p.packed raw).2
  enc := (p.packed raw).1

end LayerPacking

namespace LayerBuilder

variable {E : Type} (c : Coding E) (p : LayerPacking)

def new : LayerBuilder E where
  buf := header c.kind
  blocks := []
  hashes := []
  raw := []
  first := LayerKey.page 0 0 0 0 0
  last := none
  count := 0
  total := 0
  lsns := c.lsns

/-- The key of the entry pushed last. -/
def lastKey (b : LayerBuilder E) : LayerKey :=
  (b.last.map c.fmt.key).getD (LayerKey.page 0 0 0 0 0)

/-- Close the block that fills. -/
def pushBlock (b : LayerBuilder E) : LayerBuilder E := { b with
  buf := b.buf ++ (p.packed b.raw).2
  blocks := b.blocks ++ [p.indexRow b.buf.length b.raw b.first (b.lastKey c) b.count] }

def push (target : Nat) (b : LayerBuilder E) (e : E) : Except LayerBuildError (LayerBuilder E) :=
  if b.last.any fun x => ! c.fmt.before x e then .error .unsorted else
  match c.fmt.check e with
  | .error err => .error err
  | .ok () =>
    let first := if b.last.isNone then c.fmt.key e else b.first
    let hashes := if c.hashed b.last e then b.hashes ++ [Bloom.hash p.crc (c.fmt.key e)]
      else b.hashes
    let b : LayerBuilder E := { b with first := first, hashes := hashes }
    let b : LayerBuilder E :=
      if b.raw ≠ [] ∧ b.raw.length + c.fmt.size e > target then
        { b.pushBlock c p with raw := [], count := 0, first := c.fmt.key e }
      else b
    .ok { b with
      raw := b.raw ++ c.bytes e
      last := some e
      count := b.count + 1
      total := b.total + 1
      lsns := c.note b.lsns e }

def pushAll (target : Nat) : LayerBuilder E → List E → Except LayerBuildError (LayerBuilder E)
  | b, [] => .ok b
  | b, e :: es =>
    match b.push c p target e with
    | .error err => .error err
    | .ok b => pushAll target b es

end LayerBuilder

namespace CodedFooter

def rowBytes (r : IndexRow) : List UInt8 :=
  r.firstKey.encode ++ (r.lastKey.encode ++ (le 8 r.offset ++ (le 4 r.len ++ (le 4 r.rawLen
    ++ (le 4 r.entries ++ (le 4 r.crc ++ le 1 r.enc))))))

/-- The footer body. -/
def body (f : CodedFooter) : List UInt8 :=
  f.minKey.encode ++ (f.maxKey.encode ++ (le 8 f.minLsn ++ (le 8 f.maxLsn ++ (le 8 f.entryCount
    ++ (le 4 f.blocks.length ++ (f.blocks.flatMap rowBytes
    ++ (le 4 f.bloom.bytes.length ++ f.bloom.bytes)))))))

end CodedFooter

namespace LayerPacking

variable (p : LayerPacking)

/-- Close the object: the body, its length cut to four bytes, the crc over
the header and that much of the body, and the magic. -/
def finish (buf : List UInt8) (f : CodedFooter) : List UInt8 :=
  let footerLen := f.body.length % 2 ^ 32
  buf ++ (f.body ++ (le 4 footerLen
    ++ (le 4 (p.crc (p.crc 0 (buf.take layerHeaderLen)) (f.body.take footerLen))
    ++ layerFooterMagic)))

end LayerPacking

namespace LayerBuilder

variable {E : Type} (c : Coding E) (p : LayerPacking)

def footer (b : LayerBuilder E) : CodedFooter where
  kind := c.kind
  minKey := (b.blocks.head?.map fun r => r.firstKey).getD (LayerKey.page 0 0 0 0 0)
  maxKey := (b.blocks.getLast?.map fun r => r.lastKey).getD (LayerKey.page 0 0 0 0 0)
  minLsn := b.lsns.1
  maxLsn := b.lsns.2
  entryCount := b.total
  blocks := b.blocks
  bloom := Bloom.fromHashes b.hashes

def finish (b : LayerBuilder E) : Except LayerBuildError (List UInt8 × CodedFooter) :=
  if b.last.isNone then .error .empty
  else
    let b := b.pushBlock c p
    .ok (p.finish b.buf (b.footer c), b.footer c)

def build (target : Nat) (es : List E) : Except LayerBuildError (List UInt8 × CodedFooter) :=
  match (new c).pushAll c p target es with
  | .error err => .error err
  | .ok b => b.finish c p

end LayerBuilder

namespace LayerPacking

variable (p : LayerPacking)

def buildDelta (entries : List DeltaEntry) (target : Nat) :
    Except LayerBuildError (List UInt8 × CodedFooter) :=
  LayerBuilder.build deltaCoding p target entries

def buildImage (entries : List ImageEntry) (lsn : Lsn) (target : Nat) :
    Except LayerBuildError (List UInt8 × CodedFooter) :=
  LayerBuilder.build (imageCoding lsn) p target entries

end LayerPacking

/-! ## Parsing the footer -/

def parseHeader (h : List UInt8) : Except CodecError LayerKind :=
  if h.length < layerHeaderLen then .error (.truncated h.length layerHeaderLen)
  else if slice h 0 4 ≠ layerMagic then .error .badMagic
  else if ofLe (slice h 4 2) ≠ layerVersion then .error (.unsupportedVersion (ofLe (slice h 4 2)))
  else match ofLe (slice h 6 1) with
    | 0 => .ok .delta
    | 1 => .ok .image
    | _ => .error .corrupt

/-- The next `n` bytes of a body, and what follows. -/
def takeBytes (n : Nat) (b : List UInt8) : Except CodecError (List UInt8 × List UInt8) :=
  if n ≤ b.length then .ok (b.take n, b.drop n) else .error .corrupt

/-- Image blocks are disjoint; delta blocks may share a boundary key. -/
def overlaps (kind : LayerKind) (q r : IndexRow) : Bool :=
  match kind with
  | .image => r.firstKey ≤ q.lastKey
  | .delta => r.firstKey < q.lastKey

/-- What a row proves of itself: it starts where the one before ends, is
not empty or impossibly large, and its keys go on from those before. -/
def rowBad (kind : LayerKind) (expectAt : Nat) (prev : Option IndexRow) (r : IndexRow) : Bool :=
  r.offset ≠ expectAt || r.entries = 0 || r.firstKey > r.lastKey || r.rawLen > maxBlockRawLen
    || (r.enc ≠ layerEncRaw ∧ r.enc ≠ layerEncLz4) || (r.enc = layerEncRaw ∧ r.len ≠ r.rawLen)
    || prev.any fun q => overlaps kind q r

def parseRow (b : List UInt8) : Except CodecError (IndexRow × List UInt8) := do
  let (firstKey, b) ← takeBytes keyEncodedLen b
  let (lastKey, b) ← takeBytes keyEncodedLen b
  let (fixed, b) ← takeBytes (blockMetaLen - 2 * keyEncodedLen) b
  .ok ({
    firstKey := LayerKey.decode firstKey
    lastKey := LayerKey.decode lastKey
    offset := ofLe (slice fixed 0 8)
    len := ofLe (slice fixed 8 4)
    rawLen := ofLe (slice fixed 12 4)
    entries := ofLe (slice fixed 16 4)
    crc := ofLe (slice fixed 20 4)
    enc := ofLe (slice fixed 24 1) }, b)

structure ParsedRows where
  rows : List IndexRow
  expectAt : Nat
  entrySum : Nat
  rest : List UInt8
  deriving DecidableEq, Repr

/-- The rows of a body. -/
def parseRows (kind : LayerKind) : Nat → ParsedRows → Except CodecError ParsedRows
  | 0, s => .ok s
  | n + 1, s => do
      let (r, rest) ← parseRow s.rest
      if rowBad kind s.expectAt s.rows.getLast? r || s.expectAt + r.len ≥ 2 ^ 64 then
        .error .corrupt
      else parseRows kind n ⟨s.rows ++ [r], s.expectAt + r.len, s.entrySum + r.entries, rest⟩

def parseFooterBody (kind : LayerKind) (body : List UInt8) (footerStart : Nat) :
    Except CodecError CodedFooter := do
  let (minKey, b) ← takeBytes keyEncodedLen body
  let (maxKey, b) ← takeBytes keyEncodedLen b
  let (minLsn, b) ← takeBytes 8 b
  let (maxLsn, b) ← takeBytes 8 b
  let (entryCount, b) ← takeBytes 8 b
  let (blockCount, b) ← takeBytes 4 b
  if ofLe blockCount = 0 ∨ ofLe blockCount > b.length / blockMetaLen then .error .corrupt else
  let s ← parseRows kind (ofLe blockCount) ⟨[], layerHeaderLen, 0, b⟩
  if s.expectAt ≠ footerStart ∨ s.entrySum ≠ ofLe entryCount then .error .corrupt
  else if some (LayerKey.decode minKey) ≠ s.rows.head?.map (fun r => r.firstKey)
      ∨ some (LayerKey.decode maxKey) ≠ s.rows.getLast?.map (fun r => r.lastKey)
      ∨ ofLe minLsn > ofLe maxLsn then .error .corrupt
  else
    let (bloomLen, b) ← takeBytes 4 s.rest
    if ofLe bloomLen > b.length then .error .corrupt else
    let (bits, b) ← takeBytes (ofLe bloomLen) b
    match Bloom.fromBits bits with
    | none => .error .corrupt
    | some bloom =>
      if b ≠ [] then .error .corrupt
      else .ok {
        kind := kind
        minKey := LayerKey.decode minKey
        maxKey := LayerKey.decode maxKey
        minLsn := ofLe minLsn
        maxLsn := ofLe maxLsn
        entryCount := ofLe entryCount
        blocks := s.rows
        bloom := bloom }

namespace LayerPacking

variable (p : LayerPacking)

/-- The footer of a whole object, and where it starts. -/
def parseShell (buf : List UInt8) : Except CodecError (CodedFooter × Nat) :=
  if buf.length < layerHeaderLen + tailLen then
    .error (.truncated buf.length (layerHeaderLen + tailLen)) else
  match parseHeader (buf.take layerHeaderLen) with
  | .error e => .error e
  | .ok kind =>
    if buf.drop (buf.length - 4) ≠ layerFooterMagic then .error .badMagic else
    let tailAt := buf.length - tailLen
    let footerLen := ofLe (slice buf tailAt 4)
    if footerLen > tailAt - layerHeaderLen then .error .corrupt else
    let footerStart := tailAt - footerLen
    if p.crc (p.crc 0 (buf.take layerHeaderLen)) (slice buf footerStart footerLen)
        ≠ ofLe (slice buf (tailAt + 4) 4) then .error .corrupt
    else match parseFooterBody kind (slice buf footerStart footerLen) footerStart with
      | .error e => .error e
      | .ok f => .ok (f, footerStart)

def readLayerFooter (buf : List UInt8) : Except CodecError CodedFooter :=
  (p.parseShell buf).map Prod.fst

/-- The footer from one suffix of an object of `objectLen` bytes. The
header is named by the kind and proved by the crc. -/
def readLayerFooterSuffix (kind : LayerKind) (suffix : List UInt8) (objectLen : Nat) :
    Except CodecError CodedFooter :=
  if suffix.length < tailLen ∨ suffix.length > objectLen then
    .error (.truncated suffix.length tailLen)
  else if suffix.drop (suffix.length - 4) ≠ layerFooterMagic then .error .badMagic
  else
    let tailAt := suffix.length - tailLen
    let footerLen := ofLe (slice suffix tailAt 4)
    let need := footerLen + tailLen
    if need > objectLen - layerHeaderLen then .error .corrupt
    else if suffix.length < need then .error (.truncated suffix.length need)
    else if p.crc (p.crc 0 (header kind)) (slice suffix (suffix.length - need) footerLen)
        ≠ ofLe (slice suffix (tailAt + 4) 4) then .error .corrupt
    else parseFooterBody kind (slice suffix (suffix.length - need) footerLen) (objectLen - need)

/-! ## Decoding -/

def blockRaw (bytes : List UInt8) (r : IndexRow) : Except CodecError (List UInt8) :=
  if bytes.length ≠ r.len ∨ r.rawLen > maxBlockRawLen ∨ p.crc 0 bytes ≠ r.crc then .error .corrupt
  else
    let raw := if r.enc = layerEncRaw ∧ r.len = r.rawLen then some bytes
      else if r.enc = layerEncLz4 then p.decompress bytes r.rawLen
      else none
    match raw with
    | none => .error .corrupt
    | some raw => if raw.length ≠ r.rawLen then .error .corrupt else .ok raw

end LayerPacking

/-- The entries of a raw delta block, in order, and what follows them. -/
def deltaEntries : Nat → List UInt8 → List DeltaEntry →
    Except CodecError (List DeltaEntry × List UInt8)
  | 0, raw, es => .ok (es, raw)
  | n + 1, raw, es => do
      let (fixed, raw) ← takeBytes entryFixedLen raw
      let key := LayerKey.decode (fixed.take keyEncodedLen)
      let lsn := ofLe (slice fixed 18 8)
      let len := ofLe (slice fixed 26 4)
      if len > maxRecordLen then .error .corrupt else
      let (record, raw) ← takeBytes len raw
      let e : DeltaEntry := ⟨key, lsn, record⟩
      if es.getLast?.any fun q => ! deltaFormat.before q e then .error .corrupt
      else deltaEntries n raw (es ++ [e])

/-- The entries of a raw image block, a stride at a time. -/
def imageEntries : Nat → List UInt8 → List ImageEntry → Except CodecError (List ImageEntry)
  | 0, _, es => .ok es
  | n + 1, raw, es =>
    let chunk := raw.take (keyEncodedLen + pageImageLen)
    let e : ImageEntry := ⟨LayerKey.decode (chunk.take keyEncodedLen), chunk.drop keyEncodedLen⟩
    if es.getLast?.any fun q => ! decide (q.key < e.key) then .error .corrupt
    else imageEntries n (raw.drop (keyEncodedLen + pageImageLen)) (es ++ [e])

namespace LayerPacking

variable (p : LayerPacking)

def decodeDeltaBlock (bytes : List UInt8) (r : IndexRow) : Except CodecError (List DeltaEntry) := do
  let raw ← p.blockRaw bytes r
  let (es, rest) ← deltaEntries r.entries raw []
  if rest ≠ [] ∨ es.head?.map DeltaEntry.key ≠ some r.firstKey
      ∨ es.getLast?.map DeltaEntry.key ≠ some r.lastKey then .error .corrupt
  else .ok es

def decodeImageBlock (bytes : List UInt8) (r : IndexRow) : Except CodecError (List ImageEntry) := do
  let raw ← p.blockRaw bytes r
  if raw.length ≠ r.entries * (keyEncodedLen + pageImageLen) then .error .corrupt else
  let es ← imageEntries r.entries raw []
  if es.head?.map ImageEntry.key ≠ some r.firstKey
      ∨ es.getLast?.map ImageEntry.key ≠ some r.lastKey then .error .corrupt
  else .ok es

end LayerPacking

def checkKind (f : CodedFooter) (expected : LayerKind) : Except CodecError Unit :=
  if f.kind ≠ expected then .error (.wrongKind expected f.kind) else .ok ()

/-- The bytes a row names. -/
def rowSlice (buf : List UInt8) (r : IndexRow) : List UInt8 := slice buf r.offset r.len

section Decode

variable {E : Type}

/-- The blocks of an object one after the other. `follows` is the order
across a boundary, which only a delta layer checks. -/
def decodeBlocks (decode : List UInt8 → IndexRow → Except CodecError (List E))
    (follows : E → E → Bool) (buf : List UInt8) :
    Nat → List IndexRow → List E → Except CodecError (List E)
  | _, [], es => .ok es
  | index, r :: rows, es =>
    match decode (rowSlice buf r) r with
    | .error _ => .error (.block index)
    | .ok run =>
      if es.getLast?.any fun q => run.head?.any fun e => ! follows q e then
        .error (.block index)
      else decodeBlocks decode follows buf (index + 1) rows (es ++ run)

end Decode

namespace LayerPacking

variable (p : LayerPacking)

def decodeDelta (buf : List UInt8) : Except CodecError (List DeltaEntry × CodedFooter) := do
  let (f, _) ← p.parseShell buf
  checkKind f .delta
  let es ← decodeBlocks p.decodeDeltaBlock deltaFormat.before buf 0 f.blocks []
  .ok (es, f)

def decodeImage (buf : List UInt8) : Except CodecError (List ImageEntry × CodedFooter) := do
  let (f, _) ← p.parseShell buf
  checkKind f .image
  let es ← decodeBlocks p.decodeImageBlock (fun _ _ => true) buf 0 f.blocks []
  .ok (es, f)

end LayerPacking

/-! ## Cursors -/

/-- A cursor over the entries of an object: the rows not yet read and how
many were, the entries of the current block, and the entry yielded last. -/
structure LayerCursor (E : Type) where
  rows : List IndexRow
  block : Nat
  entries : List E
  prev : Option E
  dead : Bool

section Cursor

variable {E : Type} (decode : List UInt8 → IndexRow → Except CodecError (List E))
  (follows : E → E → Bool) (buf : List UInt8)

/-- An entry of the current block. -/
def LayerCursor.yield (c : LayerCursor E) (e : E) (es : List E) :
    Except CodecError E × LayerCursor E :=
  if c.prev.any fun q => ! follows q e then
    (.error (.block (c.block - 1)), { c with entries := es, dead := true })
  else (.ok e, { c with entries := es, prev := some e })

/-- Blocks are read until one has an entry. -/
def LayerCursor.advance (prev : Option E) :
    List IndexRow → Nat → Option (Except CodecError E) × LayerCursor E
  | [], block => (none, ⟨[], block, [], prev, false⟩)
  | r :: rows, block =>
    match decode (rowSlice buf r) r with
    | .error _ => (some (.error (.block block)), ⟨rows, block + 1, [], prev, true⟩)
    | .ok [] => advance prev rows (block + 1)
    | .ok (e :: es) =>
      match LayerCursor.yield follows ⟨rows, block + 1, e :: es, prev, false⟩ e es with
      | (r, c) => (some r, c)

def LayerCursor.next (c : LayerCursor E) : Option (Except CodecError E) × LayerCursor E :=
  if c.dead then (none, c) else
  match c.entries with
  | e :: es => match c.yield follows e es with
      | (r, c) => (some r, c)
  | [] => LayerCursor.advance decode follows buf c.prev c.rows c.block

/-- What a cursor yields in `n` calls, up to its end. -/
def LayerCursor.drain : Nat → LayerCursor E → List (Except CodecError E)
  | 0, _ => []
  | n + 1, c => match c.next decode follows buf with
      | (none, _) => []
      | (some r, c) => r :: drain n c

end Cursor

namespace LayerPacking

variable (p : LayerPacking)

def deltaCursor (buf : List UInt8) : Except CodecError (LayerCursor DeltaEntry) := do
  let (f, _) ← p.parseShell buf
  checkKind f .delta
  .ok ⟨f.blocks, 0, [], none, false⟩

def imageCursor (buf : List UInt8) : Except CodecError (LayerCursor ImageEntry) := do
  let (f, _) ← p.parseShell buf
  checkKind f .image
  .ok ⟨f.blocks, 0, [], none, false⟩

end LayerPacking

end Zou
