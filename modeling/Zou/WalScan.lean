import Mathlib.Algebra.Order.Ring.Nat

/-!
# Walking WAL records

The cursor over a window of the Postgres WAL stream, the walk of its
complete records, and the parse of a record's block references. A window
is a base lsn and the bytes from there on. Page headers interrupt the
stream every 8 KiB, a long one opens every 16 MiB segment.

The source's cursor is a mutable position; here each read returns the new
one. An abandoned record leaves the cursor on the page that says so, and
the error carries that page.
-/

namespace Zou

def xlogBlcksz : Nat := 8192
def walSegmentSize : Nat := 16 * 1024 * 1024
def xlogPageMagic : Nat := 0xD118
def shortPhd : Nat := 24
def longPhd : Nat := 40
def recordHeader : Nat := 24
def maxalign : Nat := 8

/-- Little endian. -/
def fromLe : List UInt8 → Nat
  | [] => 0
  | b :: bs => b.toNat + 256 * fromLe bs

/-- What the source's messages say about a stream that cannot be WAL. -/
inductive Corrupt where
  | badMagic (magic pos : Nat)
  | badLength (totLen lsn : Nat)
  | itemsOverrun
  | sameRelFirst
  | unknownBlockId (id : Nat)
  | smgrTooShort
  deriving DecidableEq, Repr

inductive ScanErr where
  | truncated
  | aborted (page : Nat)
  | corrupt (c : Corrupt)
  deriving DecidableEq, Repr

structure WalWindow where
  base : Nat
  buf : List UInt8
  deriving DecidableEq, Repr

/-- One complete record, page headers stripped. -/
structure WalRecord where
  lsn : Nat
  endLsn : Nat
  rmid : Nat
  info : Nat
  xid : Nat
  bytes : List UInt8
  deriving DecidableEq, Repr

/-! ## The cursor -/

namespace WalWindow

def end_ (w : WalWindow) : Nat := w.base + w.buf.length

/-- `len` bytes at `pos`. Below the base the offset wraps past any buffer. -/
def at_ (w : WalWindow) (pos len : Nat) : Except ScanErr (List UInt8) :=
  if w.base ≤ pos ∧ pos - w.base + len ≤ w.buf.length then
    .ok ((w.buf.drop (pos - w.base)).take len)
  else .error .truncated

/-- The length of the page header at a page boundary. -/
def phd (pos : Nat) : Nat := if pos % walSegmentSize = 0 then longPhd else shortPhd

/-- Skip the page header if the cursor sits on a page boundary, and say
whether the page carried the overwrite flag. -/
def skipPageHeader (w : WalWindow) (pos : Nat) : Except ScanErr (Bool × Nat) :=
  if pos % xlogBlcksz ≠ 0 then .ok (false, pos) else
  match w.at_ pos 4 with
  | .error e => .error e
  | .ok header =>
    let magic := fromLe (header.take 2)
    if magic ≠ xlogPageMagic then .error (.corrupt (.badMagic magic pos)) else
    let overwrite := (fromLe (header.drop 2) / 8) % 2 = 1
    .ok (overwrite, pos + phd pos)

/-- The page header at a boundary reached inside a record. -/
def skipPageHeaderWithin (w : WalWindow) (pos : Nat) : Except ScanErr Nat :=
  match w.skipPageHeader pos with
  | .error e => .error e
  | .ok (true, _) => .error (.aborted pos)
  | .ok (false, pos') => .ok pos'

/-- Read `remaining` record bytes, hopping page headers. Every turn takes
at least one byte, so the number of them is fuel enough. -/
def readLoop (w : WalWindow) : Nat → Nat → Nat → Except ScanErr (List UInt8 × Nat)
  | 0, pos, _ => .ok ([], pos)
  | fuel + 1, pos, remaining =>
    if remaining = 0 then .ok ([], pos) else
    match w.skipPageHeaderWithin pos with
    | .error e => .error e
    | .ok pos =>
      let run := min (xlogBlcksz - pos % xlogBlcksz) remaining
      match w.at_ pos run with
      | .error e => .error e
      | .ok bytes =>
        match readLoop w fuel (pos + run) (remaining - run) with
        | .error e => .error e
        | .ok (rest, pos) => .ok (bytes ++ rest, pos)

def read (w : WalWindow) (pos len : Nat) : Except ScanErr (List UInt8 × Nat) :=
  w.readLoop len pos len

/-! ## The walk -/

/-- The record at `lsn`, which is past any page header. -/
def readRecord (w : WalWindow) (lsn : Nat) : Except ScanErr (WalRecord × Nat) :=
  match w.read lsn recordHeader with
  | .error e => .error e
  | .ok (header, pos) =>
    let totLen := fromLe (header.take 4)
    if totLen < recordHeader then .error (.corrupt (.badLength totLen lsn)) else
    match w.read pos (totLen - recordHeader) with
    | .error e => .error e
    | .ok (body, pos) =>
      let endLsn := (pos + maxalign - 1) / maxalign * maxalign
      .ok ({ lsn := lsn
             endLsn := endLsn
             rmid := (header.getD 17 0).toNat
             info := (header.getD 16 0).toNat
             xid := fromLe ((header.drop 4).take 4)
             bytes := header ++ body }, endLsn)

/-- One turn of the walk: switch padding, a page header that ends the
window, or a record. -/
def step (w : WalWindow) (limit recStart : Nat) : Except ScanErr (Option WalRecord × Nat) :=
  match w.at_ recStart 4 with
  | .error e => .error e
  | .ok head =>
    if head = [0, 0, 0, 0] then
      .ok (none, recStart / walSegmentSize * walSegmentSize + walSegmentSize)
    else
    match w.skipPageHeader recStart with
    | .error e => .error e
    | .ok (_, pos) =>
      if pos ≥ limit then .ok (none, pos) else
      match w.readRecord pos with
      | .error e => .error e
      | .ok (r, pos) => .ok (some r, pos)

inductive WalError where
  | endsInside (recStart : Nat)
  | corrupt (c : Corrupt)
  deriving DecidableEq, Repr

/-- The loop of `read_records`. `strict` is whether the caller named an
end, which makes running out of window an error. -/
def walk (w : WalWindow) (limit : Nat) (strict : Bool) :
    Nat → Nat → Except WalError (List WalRecord × Nat)
  | 0, pos => .ok ([], pos)
  | fuel + 1, pos =>
    if pos < limit then
      match w.step limit pos with
      | .ok (r, pos') => (w.walk limit strict fuel pos').map fun out => (r.toList ++ out.1, out.2)
      | .error (.aborted page) => w.walk limit strict fuel page
      | .error .truncated => if strict then .error (.endsInside pos) else .ok ([], pos)
      | .error (.corrupt c) => .error (.corrupt c)
    else .ok ([], pos)

/-- Complete records from `start` on, and where the next call resumes. A
turn moves the cursor forward, so the distance to the limit is fuel
enough. -/
def readRecords (w : WalWindow) (start : Nat) (end_ : Option Nat) :
    Except WalError (List WalRecord × Nat) :=
  let limit := end_.getD w.end_
  w.walk limit end_.isSome (limit - start) start

end WalWindow

/-! ## Block references -/

structure BlockRef where
  spc : Nat
  db : Nat
  rel : Nat
  fork : Nat
  blk : Nat
  deriving DecidableEq, Repr

structure RelTag where
  spc : Nat
  db : Nat
  rel : Nat
  deriving DecidableEq, Repr

/-- What one record's header says, as far as it was read: the cursor into
the header, the bytes of the record not accounted for, the block data
announced, and what was collected. -/
structure RefScan where
  p : Nat
  remaining : Nat
  datatotal : Nat
  sawImage : Bool
  rel : Option RelTag
  refs : List (BlockRef × Bool)
  deriving DecidableEq, Repr

namespace RefScan

/-- `n` header bytes. -/
def take (header : List UInt8) (p n : Nat) : Except Corrupt (List UInt8) :=
  if p + n ≤ header.length then .ok ((header.drop p).take n) else .error .itemsOverrun

/-- A block reference item, the id byte taken. -/
def blockItem (header : List UInt8) (s : RefScan) : Except Corrupt RefScan := do
  let flags := fromLe (← take header s.p 1)
  let dataLen := fromLe (← take header (s.p + 1) 2)
  let s := { s with p := s.p + 3, remaining := s.remaining - 3, datatotal := s.datatotal + dataLen }
  let s ← if (flags / 16) % 2 = 1 then do
      let img ← take header s.p 5
      let bimg := fromLe (img.drop 4)
      let s := { s with
        p := s.p + 5, remaining := s.remaining - 5, sawImage := true
        datatotal := s.datatotal + fromLe (img.take 2) }
      if bimg % 2 = 1 ∧ (bimg / 4) % 8 ≠ 0 then do
        let _ ← take header s.p 2
        pure { s with p := s.p + 2, remaining := s.remaining - 2 }
      else pure s
    else pure s
  let s ← if (flags / 128) % 2 = 0 then do
      let loc ← take header s.p 12
      pure { s with
        p := s.p + 12, remaining := s.remaining - 12
        rel := some (RelTag.mk (fromLe (loc.take 4)) (fromLe ((loc.drop 4).take 4))
          (fromLe (loc.drop 8))) }
    else pure s
  match s.rel with
  | none => .error .sameRelFirst
  | some tag =>
    let blk := fromLe (← take header s.p 4)
    let willInit := decide ((flags / 64) % 2 = 1 ∨ (flags / 16) % 2 = 1)
    pure { s with
      p := s.p + 4, remaining := s.remaining - 4
      refs := s.refs ++ [(BlockRef.mk tag.spc tag.db tag.rel (flags % 16) blk, willInit)] }

/-- The items of a header, up to the main data item. Every turn takes at
least the id byte, so the header's length is fuel enough. -/
def items (header : List UInt8) : Nat → RefScan → Except Corrupt RefScan
  | 0, s => .ok s
  | fuel + 1, s =>
    if s.remaining ≤ s.datatotal then .ok s else do
      let id := fromLe (← take header s.p 1)
      let s := { s with p := s.p + 1, remaining := s.remaining - 1 }
      if id = 255 then
        let _ ← take header s.p 1
        pure { s with p := s.p + 1 }
      else if id = 254 then
        let _ ← take header s.p 4
        pure { s with p := s.p + 4 }
      else if id = 253 then
        let _ ← take header s.p 2
        items header fuel { s with p := s.p + 2, remaining := s.remaining - 2 }
      else if id = 252 then
        let _ ← take header s.p 4
        items header fuel { s with p := s.p + 4, remaining := s.remaining - 4 }
      else if id ≤ 32 then
        let s ← blockItem header s
        items header fuel s
      else .error (.unknownBlockId id)

end RefScan

/-- What a record touches: blocks with whether redo can build each from
nothing, relations recreated, truncates with the main fork blocks that
survive, and whether it carries an image. -/
structure RecordRefs where
  refs : List (BlockRef × Bool)
  rels : List RelTag
  truncs : List (RelTag × Nat)
  image : Bool
  deriving DecidableEq, Repr

def u32Max : Nat := 2 ^ 32 - 1

/-- The relation an smgr record names in its main data. -/
def smgrEvent (header : List UInt8) (main info : Nat) :
    Except Corrupt (List RelTag × List (RelTag × Nat)) :=
  let field (at_ : Nat) : Except Corrupt Nat :=
    if at_ + 4 ≤ header.length then .ok (fromLe ((header.drop at_).take 4))
    else .error .smgrTooShort
  if info / 16 = 1 then do
    let tag : RelTag := ⟨← field main, ← field (main + 4), ← field (main + 8)⟩
    pure ([tag], [])
  else if info / 16 = 2 then do
    let nblocks ← field main
    let tag : RelTag := ⟨← field (main + 4), ← field (main + 8), ← field (main + 12)⟩
    let flags ← field (main + 16)
    pure ([], [(tag, if flags % 2 = 1 then nblocks else u32Max)])
  else pure ([], [])

def recordBlockRefs (header : List UInt8) (totLen info rmid : Nat) : Except Corrupt RecordRefs := do
  let s ← RefScan.items header (header.length + 1) ⟨0, totLen - recordHeader, 0, false, none, []⟩
  let (rels, truncs) ← if rmid = 2 then smgrEvent header (s.p + s.datatotal) info
    else pure ([], [])
  pure ⟨s.refs, rels, truncs, s.sawImage⟩

/-- `refs_and_truncs`. -/
def WalRecord.refsAndTruncs (r : WalRecord) :
    Except Corrupt (List BlockRef × List (RelTag × Nat)) :=
  (recordBlockRefs (r.bytes.drop recordHeader) r.bytes.length r.info r.rmid).map
    fun out => (out.refs.map Prod.fst, out.truncs)

end Zou
