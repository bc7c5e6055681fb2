import Mathlib.Data.String.Basic
import Zou.Lib.Bytes
import Zou.Lib.OrdMap

/-!
# The single file store

One file is the whole store: a header and then frames, each of them the
keys, the fixed width records and the payloads of its entries. `open` walks
the frames and builds the index, and cuts the file where a frame does not
check. A write appends one frame; compaction writes the live entries as one
frame of a new file and renames it over the old one.

The model is at the level of bytes: lengths are cut to the width of their
fields. `compress`, `decompress` and `crc` are the lz4 and crc libraries';
`crc32c_append` goes on where another crc stopped, so it is the crc of both
parts. Requests to the file system do what they say, or the process stops
in the middle of one.
-/

namespace Zou

open Bytes

/-- The bytes of a key. -/
def utf8 (s : String) : List UInt8 := s.toByteArray.data.toList

/-- `std::str::from_utf8`. -/
def fromUtf8 (bs : List UInt8) : Option String := String.fromUTF8? ⟨bs.toArray⟩

theorem fromUtf8_utf8 (s : String) : fromUtf8 (utf8 s) = some s := by
  have h : (⟨(utf8 s).toArray⟩ : ByteArray) = s.toByteArray := by
    rw [utf8, Array.toArray_toList]
  rw [fromUtf8, h, String.fromUTF8?, dif_pos s.isValidUTF8]
  rfl

/-- The libraries a file is written with. -/
structure FileCodec where
  compress : List UInt8 → List UInt8
  decompress : List UInt8 → Nat → Option (List UInt8)
  crc : List UInt8 → UInt32

def fileMagic : List UInt8 := [0x5A, 0x4F, 0x55, 0x46]

def frameMagic : List UInt8 := [0x46, 0x52, 0x41, 0x4D]

def fileFormat : Nat := 1

def headerLen : Nat := 16

def frameHeadLen : Nat := 40

def metaRecordLen : Nat := 32

def opPut : UInt8 := 0

def opTombstone : UInt8 := 1

def encRaw : UInt8 := 0

def encLz4 : UInt8 := 1

/-- Values below this many bytes are never worth a compression attempt. -/
def compressMin : Nat := 512

def autoCompactMinDead : Nat := 4 * 2 ^ 20

/-- Where the index says a payload is. -/
structure FileEntry where
  seq : Nat
  offset : Nat
  storedLen : Nat
  rawLen : Nat
  crc : Nat
  lz4 : Bool
  deriving DecidableEq, Repr

structure FileInner where
  file : List UInt8
  index : OrdMap String FileEntry
  seq : Nat
  fin : Nat
  live : Nat
  dead : Nat

/-- One pending entry while a frame is being encoded. -/
structure FrameEntry where
  key : String
  op : UInt8
  enc : UInt8
  stored : List UInt8
  rawLen : Nat
  seq : Nat
  deriving DecidableEq, Repr

/-- The header of a file. -/
def fileHeader : List UInt8 := fileMagic ++ le 4 fileFormat ++ le 8 0

namespace FileCodec

variable (c : FileCodec)

/-- Compress when it saves at least an eighth, otherwise store raw. -/
def encodeValue (data : List UInt8) : UInt8 × List UInt8 :=
  let packed := c.compress data
  if compressMin ≤ data.length ∧ packed.length ≤ data.length - data.length / 8 then (encLz4, packed)
  else (encRaw, data)

/-! ## Frames -/

def keysRaw (entries : List FrameEntry) : List UInt8 :=
  entries.flatMap fun e => le 2 (utf8 e.key).length ++ utf8 e.key

def metaRecord (e : FrameEntry) (off : Nat) : List UInt8 :=
  e.op :: e.enc :: (le 2 0 ++ le 4 e.stored.length ++ le 4 e.rawLen ++ le 4 (c.crc e.stored).toNat
    ++ le 8 e.seq ++ le 8 off)

/-- The records of a frame's entries, the first payload at `off`. -/
def metaFrom (off : Nat) : List FrameEntry → List UInt8
  | [] => []
  | e :: es => c.metaRecord e off ++ metaFrom (off + e.stored.length) es

def dataOf (entries : List FrameEntry) : List UInt8 := entries.flatMap FrameEntry.stored

/-- The offsets of the payloads, the first one at `base`. -/
def offsetsFrom (base : Nat) : List FrameEntry → List Nat
  | [] => []
  | e :: es => base :: offsetsFrom (base + e.stored.length) es

/-- The fields of a frame head that its crc covers. -/
def headFields (frameSeq : Nat) (entries : List FrameEntry) : List UInt8 :=
  le 8 frameSeq ++ le 4 entries.length ++ le 4 (c.compress (keysRaw entries)).length
    ++ le 4 (keysRaw entries).length ++ le 4 (c.metaFrom 0 entries).length
    ++ le 8 (dataOf entries).length

/-- The keys and the records, as stored. -/
def sections (entries : List FrameEntry) : List UInt8 :=
  c.compress (keysRaw entries) ++ c.metaFrom 0 entries

def encodeFrame (frameSeq : Nat) (entries : List FrameEntry) (frameStart : Nat) :
    List UInt8 × List Nat :=
  let fields := c.headFields frameSeq entries
  let head := frameMagic ++ fields ++ le 4 (c.crc (fields ++ c.sections entries)).toNat
  let dataBase := frameStart + frameHeadLen + (c.sections entries).length
  (head ++ c.sections entries ++ dataOf entries, offsetsFrom dataBase entries)

/-! ## The scan -/

/-- The keys section: `count` keys and nothing after them. -/
def parseKeys : Nat → List UInt8 → Option (List String)
  | 0, raw => if raw = [] then some [] else none
  | n + 1, raw =>
    if raw.length < 2 then none else
    let klen := ofLe (slice raw 0 2)
    if raw.length < 2 + klen then none else
    match fromUtf8 (slice raw 2 klen) with
    | none => none
    | some key => (parseKeys n (raw.drop (2 + klen))).map (key :: ·)

/-- What the scan takes from a record. -/
structure Record where
  op : UInt8
  enc : UInt8
  storedLen : Nat
  rawLen : Nat
  crc : Nat
  seq : Nat
  off : Nat
  deriving DecidableEq, Repr

def readRecord (b : List UInt8) : Record where
  op := b.headD 0
  enc := (b.drop 1).headD 0
  storedLen := ofLe (slice b 4 4)
  rawLen := ofLe (slice b 8 4)
  crc := ofLe (slice b 12 4)
  seq := ofLe (slice b 16 8)
  off := ofLe (slice b 24 8)

/-- The records next to their keys. -/
def readRecords : List String → List UInt8 → List (String × Record)
  | [], _ => []
  | key :: keys, b =>
    (key, readRecord (slice b 0 metaRecordLen)) :: readRecords keys (b.drop metaRecordLen)

/-- A frame that checks: its entries, its sequence number, where its
payloads start and where it ends. -/
structure Parsed where
  entries : List (String × Record)
  frameSeq : Nat
  base : Nat
  fin : Nat

/-- The frame at a position that holds a whole head. -/
def parseFrame (file : List UInt8) (pos : Nat) : Option Parsed :=
  let head := slice file pos frameHeadLen
  if slice head 0 4 ≠ frameMagic then none else
  let count := ofLe (slice head 12 4)
  let keysCompLen := ofLe (slice head 16 4)
  let keysRawLen := ofLe (slice head 20 4)
  let metaLen := ofLe (slice head 24 4)
  let dataLen := ofLe (slice head 28 8)
  if metaLen ≠ count * metaRecordLen then none else
  let base := pos + frameHeadLen + (keysCompLen + metaLen)
  if base + dataLen > file.length then none else
  let keysMeta := slice file (pos + frameHeadLen) (keysCompLen + metaLen)
  if (c.crc (slice head 4 32 ++ keysMeta)).toNat ≠ ofLe (slice head 36 4) then none else
  match c.decompress (slice keysMeta 0 keysCompLen) keysRawLen with
  | none => none
  | some raw =>
    match parseKeys count raw with
    | none => none
    | some keys => some {
        entries := readRecords keys (keysMeta.drop keysCompLen)
        frameSeq := ofLe (slice head 4 8)
        base := base
        fin := base + dataLen }

/-- What the scan has built so far. -/
structure Scan where
  index : OrdMap String FileEntry
  seq : Nat
  live : Nat
  dead : Nat

def Scan.new : Scan := ⟨OrdMap.empty, 0, 0, 0⟩

/-- One entry of a frame. -/
def Scan.entry (base : Nat) (s : Scan) (key : String) (r : Record) : Scan :=
  let s := match s.index.get? key with
    | none => s
    | some old => { s with
        index := s.index.remove key
        live := s.live - old.storedLen
        dead := s.dead + old.storedLen }
  if r.op = opPut then
    { s with
      live := s.live + r.storedLen
      index := s.index.insert key
        ⟨r.seq, base + r.off, r.storedLen, r.rawLen, r.crc, r.enc = encLz4⟩ }
  else s

def Scan.frame (s : Scan) (p : Parsed) : Scan :=
  let s := p.entries.foldl (fun s e => s.entry p.base e.1 e.2) s
  { s with seq := max s.seq p.frameSeq }

theorem lt_fin {file : List UInt8} {pos : Nat} {p : Parsed} (h : c.parseFrame file pos = some p) :
    pos < p.fin := by
  unfold parseFrame at h
  dsimp only at h
  split at h
  · cases h
  split at h
  · cases h
  split at h
  · cases h
  split at h
  · cases h
  split at h
  · cases h
  split at h
  · cases h
  · cases h
    show pos < pos + frameHeadLen + _ + _
    rw [frameHeadLen]
    omega

/-- Walk the frames from a position; the end of the last one that checks is
where the file is cut. -/
def scanFrom (file : List UInt8) (pos : Nat) (s : Scan) : Scan × Nat :=
  if pos + frameHeadLen > file.length then (s, pos) else
  match _h : c.parseFrame file pos with
  | none => (s, pos)
  | some p => scanFrom file p.fin (s.frame p)
termination_by file.length - pos
decreasing_by
  have := c.lt_fin _h
  have : 0 < frameHeadLen := by decide
  omega

/-- `scan`: the index, and the file without its torn tail. -/
def scan (file : List UInt8) : FileInner :=
  let (s, pos) := c.scanFrom file (min headerLen file.length) Scan.new
  ⟨file.take pos, s.index, s.seq, pos, s.live, s.dead⟩

/-! ## The store -/

/-- `append`: one frame with one entry, and its version. -/
def append (inner : FileInner) (key : String) (op : UInt8) (data : Option (List UInt8)) :
    FileInner × Nat :=
  let seq := inner.seq + 1
  let (enc, stored, rawLen) := match data with
    | some d => ((c.encodeValue d).1, (c.encodeValue d).2, d.length % 2 ^ 32)
    | none => (encRaw, [], 0)
  let storedLen := stored.length % 2 ^ 32
  let (frame, offsets) := c.encodeFrame seq [⟨key, op, enc, stored, rawLen, seq⟩] inner.fin
  let inner := { inner with
    file := inner.file.take inner.fin ++ frame ++ inner.file.drop (inner.fin + frame.length)
    fin := inner.fin + frame.length
    seq := seq }
  let inner := match inner.index.get? key with
    | none => inner
    | some old => { inner with
        index := inner.index.remove key
        live := inner.live - old.storedLen
        dead := inner.dead + old.storedLen }
  let inner := if op = opPut then
      { inner with
        live := inner.live + storedLen
        index := inner.index.insert key
          ⟨seq, offsets.headD 0, storedLen, rawLen, (c.crc stored).toNat, enc = encLz4⟩ }
    else inner
  (inner, seq)

inductive FileError where
  | conflict
  | shortRead
  | payloadCrc
  | lz4
  deriving DecidableEq, Repr

/-- `read_entry`. -/
def readEntry (inner : FileInner) (e : FileEntry) : Except FileError (List UInt8) :=
  let stored := slice inner.file e.offset e.storedLen
  if stored.length < e.storedLen then .error .shortRead
  else if (c.crc stored).toNat ≠ e.crc then .error .payloadCrc
  else if e.lz4 then
    match c.decompress stored e.rawLen with
    | none => .error .lz4
    | some data => .ok data
  else .ok stored

def get (inner : FileInner) (key : String) : Except FileError (Option (List UInt8 × Nat)) :=
  match inner.index.get? key with
  | none => .ok none
  | some e => (c.readEntry inner e).map fun data => some (data, e.seq)

def put (inner : FileInner) (key : String) (data : List UInt8) : FileInner × Nat :=
  c.append inner key opPut (some data)

/-- `put_if_match`. -/
def putIfMatch (inner : FileInner) (key : String) (data : List UInt8) (expected : Option Nat) :
    Except FileError (FileInner × Nat) :=
  if (inner.index.get? key).map FileEntry.seq = expected then .ok (c.put inner key data)
  else .error .conflict

def delete (inner : FileInner) (key : String) : FileInner :=
  if (inner.index.get? key).isSome then (c.append inner key opTombstone none).1 else inner

/-- The live entries, as compaction writes them. -/
def liveEntries (inner : FileInner) : List FrameEntry :=
  inner.index.entries.map fun (key, e) =>
    ⟨key, opPut, if e.lz4 then encLz4 else encRaw, slice inner.file e.offset e.storedLen, e.rawLen,
      e.seq⟩

/-- The file compaction writes. -/
def compacted (inner : FileInner) : List UInt8 × List Nat :=
  if liveEntries inner = [] then (fileHeader, [])
  else
    let (frame, offsets) := c.encodeFrame inner.seq (liveEntries inner) headerLen
    (fileHeader ++ frame, offsets)

/-- The index with every entry moved to where compaction put its payload. -/
def moved (index : OrdMap String FileEntry) (offsets : List Nat) : OrdMap String FileEntry :=
  (index.entries.zip offsets).foldl (fun m p => m.insert p.1.1 { p.1.2 with offset := p.2 }) index

/-- `compact`, once the new file is in place. -/
def compact (inner : FileInner) : FileInner :=
  let (out, offsets) := c.compacted inner
  { inner with
    file := out
    index := moved inner.index offsets
    fin := out.length
    live := (inner.index.entries.map fun p => p.2.storedLen).sum
    dead := 0 }

end FileCodec

/-! ## Runs -/

inductive FileEvent where
  | put (key : String) (data : List UInt8) (version : Nat)
  | delete (key : String)
  deriving DecidableEq, Repr

/-- The objects and versions a history leaves, the newest event first. -/
def objectsAfter : List FileEvent → String → Option (List UInt8 × Nat)
  | [], _ => none
  | .put k data version :: es, key => if key = k then some (data, version) else objectsAfter es key
  | .delete k :: es, key => if key = k then none else objectsAfter es key

inductive OpenError where
  | header
  | badMagic
  | newer (format : Nat)
  | older (format : Nat)
  deriving DecidableEq, Repr

/-- Where a compaction stops: with some of the new file written, with the
old file removed (where a rename does not replace), or with the new one in
place. -/
inductive CompactStop where
  | writing (cut : Nat)
  | removed
  | renamed
  deriving DecidableEq, Repr

/-- A write. -/
inductive FileWrite where
  | put (key : String) (data : List UInt8)
  | delete (key : String)
  deriving DecidableEq, Repr

inductive FileStep where
  | put (key : String) (data : List UInt8)
  | putIfMatch (key : String) (data : List UInt8) (expected : Option Nat)
  | delete (key : String)
  | compact
  | close
  | open
  /-- The process stops in a write, with `cut` bytes of its frame on disk. -/
  | stopWrite (w : FileWrite) (cut : Nat)
  | stopCompact (at_ : CompactStop)
  /-- It stops in the compaction that `open` decided on. -/
  | stopOpen (at_ : CompactStop)
  deriving DecidableEq, Repr

/-- The two files, the store a process has open, and what nobody keeps: the
operations that are done, newest first. -/
structure ZouFile where
  main : Option (List UInt8)
  tmp : Option (List UInt8)
  inner : Option FileInner
  done : List FileEvent

namespace ZouFile

def fresh : ZouFile := ⟨none, none, none, []⟩

variable (c : FileCodec)

/-- The checks of `open` on a header. -/
def checkHeader (file : List UInt8) : Except OpenError Unit :=
  if file.length < headerLen then .error .header
  else if slice file 0 4 ≠ fileMagic then .error .badMagic
  else if ofLe (slice file 4 4) > fileFormat then .error (.newer (ofLe (slice file 4 4)))
  else if ofLe (slice file 4 4) < fileFormat then .error (.older (ofLe (slice file 4 4)))
  else .ok ()

/-- The file `open` scans: a lone new file is adopted, an empty one gets a
header. -/
def adopted (main tmp : Option (List UInt8)) : List UInt8 :=
  let file := (main.orElse fun _ => tmp).getD []
  if file = [] then fileHeader else file

def needsCompact (inner : FileInner) : Bool :=
  inner.dead > inner.live ∧ inner.dead > autoCompactMinDead

/-- `open`, up to the compaction it may decide on. -/
def scanned (s : ZouFile) : Except OpenError FileInner :=
  (checkHeader (adopted s.main s.tmp)).map fun _ => c.scan (adopted s.main s.tmp)

/-- A store with its files. -/
def holding (s : ZouFile) (inner : FileInner) (done : List FileEvent) : ZouFile :=
  { s with main := some inner.file, tmp := none, inner := some inner, done := done }

def stopCompact (s : ZouFile) (inner : FileInner) : CompactStop → ZouFile
  | .writing cut => ⟨some inner.file, some ((c.compacted inner).1.take cut), none, s.done⟩
  | .removed => ⟨none, some (c.compacted inner).1, none, s.done⟩
  | .renamed => ⟨some (c.compacted inner).1, none, none, s.done⟩

/-- The store after a write, and the event it is. A delete of what is not
there writes nothing. -/
def write (inner : FileInner) : FileWrite → FileInner × Option FileEvent
  | .put key data =>
    ((c.put inner key data).1, some (.put key data (c.put inner key data).2))
  | .delete key =>
    (c.delete inner key, if (inner.index.get? key).isSome then some (.delete key) else none)

/-- The process stops in a write: its frame is on disk up to `cut`. A frame
that is whole is a write that happened. -/
def stopWrite (s : ZouFile) (inner : FileInner) (w : FileWrite) (cut : Nat) : ZouFile :=
  let after := write c inner w
  ⟨some (after.1.file.take (inner.fin + cut)), none, none,
    if after.1.file.length ≤ inner.fin + cut then after.2.toList ++ s.done else s.done⟩

def next (s : ZouFile) (l : FileStep) : Option ZouFile :=
  match s.inner, l with
  | some inner, .put key data =>
    let r := write c inner (.put key data)
    some (s.holding r.1 (r.2.toList ++ s.done))
  | some inner, .putIfMatch key data expected =>
    match c.putIfMatch inner key data expected with
    | .error _ => some s
    | .ok (inner', version) => some (s.holding inner' (.put key data version :: s.done))
  | some inner, .delete key =>
    let r := write c inner (.delete key)
    some (s.holding r.1 (r.2.toList ++ s.done))
  | some inner, .compact => some (s.holding (c.compact inner) s.done)
  | some _, .close => some { s with inner := none }
  | some inner, .stopWrite w cut => some (stopWrite c s inner w cut)
  | some inner, .stopCompact at_ => some (stopCompact c s inner at_)
  | none, .open =>
    match scanned c s with
    | .error _ => none
    | .ok inner => some (s.holding (if needsCompact inner then c.compact inner else inner) s.done)
  | none, .stopOpen at_ =>
    match scanned c s with
    | .error _ => none
    | .ok inner => if needsCompact inner then some (stopCompact c s inner at_) else none
  | _, _ => none

end ZouFile

end Zou
