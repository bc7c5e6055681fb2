import Zou.Lib.Least
import Zou.WalScan
import Mathlib.Data.Finset.Basic

/-!
# Scanning the stream past the newest checkpoint

`scan_available` walks the complete records of a window and reports what
they touch: blocks, relations recreated, and the smallest cutoff of every
relation truncated. It reads no more of a record than its header items.
The tail scan of a reader holds the stream past the newest checkpoint. It
takes chunks of it, scans what they complete into the reader's dirty sets
and drops the bytes it has consumed.

The chunks of the stream are clipped against what is held. The bytes
consumed are dropped by their number, and dropping more than there are is
a panic.
-/

namespace Zou

namespace BlockRef

def toTuple (r : BlockRef) : Nat ×ₗ Nat ×ₗ Nat ×ₗ Nat ×ₗ Nat :=
  toLex (r.spc, toLex (r.db, toLex (r.rel, toLex (r.fork, r.blk))))

theorem toTuple_injective : Function.Injective toTuple := by
  rintro ⟨⟩ ⟨⟩ h
  simp [toTuple] at h
  simp [h]

instance : LinearOrder BlockRef := LinearOrder.lift' toTuple toTuple_injective

end BlockRef

namespace RelTag

def toTuple (t : RelTag) : Nat ×ₗ Nat ×ₗ Nat := toLex (t.spc, toLex (t.db, t.rel))

theorem toTuple_injective : Function.Injective toTuple := by
  rintro ⟨⟩ ⟨⟩ h
  simp [toTuple] at h
  simp [h]

instance : LinearOrder RelTag := LinearOrder.lift' toTuple toTuple_injective

end RelTag

/-! ## The scan -/

/-- What a scan reads of a record: its length, two bytes of the fixed
header, and the head of its body. -/
structure RecordHead where
  totLen : Nat
  info : Nat
  rmid : Nat
  header : List UInt8
  deriving DecidableEq, Repr

/-- What a scan produced, and where the next one should resume. -/
structure ScanOut where
  refs : List BlockRef
  rels : List RelTag
  truncs : List (RelTag × Nat)
  resume : Nat
  deriving DecidableEq, Repr

/-- Capped well above the biggest possible header region. -/
def headCap : Nat := 4096

def RecordHead.blockRefs (h : RecordHead) : Except Corrupt RecordRefs :=
  recordBlockRefs h.header h.totLen h.info h.rmid

/-- Where the record behind one that ends at `pos` starts. -/
def alignUp (pos : Nat) : Nat := (pos + maxalign - 1) / maxalign * maxalign

/-- The segment boundary behind `pos`. -/
def nextSegment (pos : Nat) : Nat := pos / walSegmentSize * walSegmentSize + walSegmentSize

namespace WalWindow

/-- Advance past `remaining` record bytes without copying. -/
def skipLoop (w : WalWindow) : Nat → Nat → Nat → Except ScanErr Nat
  | 0, pos, _ => .ok pos
  | fuel + 1, pos, remaining =>
    if remaining = 0 then .ok pos else
    match w.skipPageHeaderWithin pos with
    | .error e => .error e
    | .ok pos =>
      let run := min (xlogBlcksz - pos % xlogBlcksz) remaining
      if pos + run > w.end_ then .error .truncated
      else skipLoop w fuel (pos + run) (remaining - run)

def skip (w : WalWindow) (pos len : Nat) : Except ScanErr Nat := w.skipLoop len pos len

/-- The head of the record at `pos`, which is past any page header, and
where its last byte ends. The turn started at `recStart`. -/
def readHead (w : WalWindow) (recStart pos : Nat) : Except ScanErr (RecordHead × Nat) :=
  match w.read pos recordHeader with
  | .error e => .error e
  | .ok (fixed, pos) =>
    let totLen := fromLe (fixed.take 4)
    if totLen < recordHeader then .error (.corrupt (.badLength totLen recStart)) else
    let body := totLen - recordHeader
    let head := min body headCap
    match w.read pos head with
    | .error e => .error e
    | .ok (header, pos) =>
      -- To the end of the record before anything it says is used, so
      -- that an abandoned record leaves nothing behind.
      match w.skip pos (body - head) with
      | .error e => .error e
      | .ok pos =>
        .ok ({ totLen := totLen
               info := (fixed.getD 16 0).toNat
               rmid := (fixed.getD 17 0).toNat
               header := header }, pos)

/-- One turn of the scan. -/
def scanStep (w : WalWindow) (limit recStart : Nat) : Except ScanErr (Option RecordRefs × Nat) :=
  match w.at_ recStart 4 with
  | .error e => .error e
  | .ok head =>
    if head = [0, 0, 0, 0] then .ok (none, nextSegment recStart) else
    match w.skipPageHeader recStart with
    | .error e => .error e
    | .ok (_, pos) =>
      if pos ≥ limit then .ok (none, pos) else
      match w.readHead recStart pos with
      | .error e => .error e
      | .ok (h, pos) =>
        match h.blockRefs with
        | .error c => .error (.corrupt c)
        | .ok refs => .ok (some refs, alignUp pos)

/-- The loop of `scan`. -/
def scanWalk (w : WalWindow) (limit : Nat) (strict : Bool) :
    Nat → Nat → Except WalError (List RecordRefs × Nat)
  | 0, pos => .ok ([], pos)
  | fuel + 1, pos =>
    if pos < limit then
      match w.scanStep limit pos with
      | .ok (r, pos') =>
        (w.scanWalk limit strict fuel pos').map fun out => (r.toList ++ out.1, out.2)
      | .error (.aborted page) => w.scanWalk limit strict fuel page
      | .error .truncated => if strict then .error (.endsInside pos) else .ok ([], pos)
      | .error (.corrupt c) => .error (.corrupt c)
    else .ok ([], pos)

/-- What the records touch, sorted and without duplicates. The ascending
sort puts the smallest cutoff of a relation first. -/
def collect (recs : List RecordRefs) (resume : Nat) : ScanOut where
  refs := ((recs.flatMap fun r => r.refs.map Prod.fst).insertionSort (· ≤ ·)).destutter (· ≠ ·)
  rels := ((recs.flatMap (·.rels)).insertionSort (· ≤ ·)).destutter (· ≠ ·)
  truncs := OrdMap.sortedFirsts (recs.flatMap (·.truncs))
  resume := resume

def scan (w : WalWindow) (start : Nat) (end_ : Option Nat) : Except WalError ScanOut :=
  let limit := end_.getD w.end_
  (w.scanWalk limit end_.isSome (limit - start) start).map fun out => collect out.1 out.2

def scanAvailable (w : WalWindow) (start : Nat) : Except WalError ScanOut := w.scan start none

end WalWindow

/-! ## The tail -/

/-- Why a call of the tail scan did not return a result. -/
inductive TailFault where
  | gap (have_ : Nat)
  | wal (e : WalWindow.WalError)
  | panic
  deriving DecidableEq, Repr

/-- The dirty sets of the reader the tail is scanned into. -/
structure DirtySets where
  dirty : Finset BlockRef
  rels : Finset RelTag
  truncs : OrdMap RelTag Nat

def DirtySets.empty : DirtySets := ⟨∅, ∅, OrdMap.empty⟩

def DirtySets.extend (d : DirtySets) (out : ScanOut) : DirtySets where
  dirty := d.dirty ∪ out.refs.toFinset
  rels := d.rels ∪ out.rels.toFinset
  truncs := out.truncs.foldl (fun m t => m.lower t.1 t.2) d.truncs

structure TailScan where
  window : WalWindow
  started : Bool
  deriving DecidableEq, Repr

namespace TailScan

def new : TailScan := ⟨⟨0, []⟩, false⟩

/-- Append one pushed chunk, clipped at the floor and at what is held. -/
def append (t : TailScan) (lsn : Nat) (bytes : List UInt8) (floor : Nat) :
    Except TailFault TailScan :=
  let end_ := lsn + bytes.length
  if ¬ t.started ∧ end_ ≤ floor then .ok t else
  let window : WalWindow :=
    if t.started then t.window else { t.window with base := max lsn floor }
  let have_ := window.end_
  if end_ ≤ have_ then .ok ⟨window, true⟩
  else if lsn > have_ then .error (.gap have_)
  else .ok ⟨{ window with buf := window.buf ++ bytes.drop (have_ - lsn) }, true⟩

/-- Scan the complete records into the dirty sets and drop the bytes
consumed. -/
def scan (t : TailScan) (sets : DirtySets) : Except TailFault (TailScan × DirtySets) :=
  if t.started = false ∨ t.window.buf = [] then .ok (t, sets) else
  match t.window.scanAvailable t.window.base with
  | .error e => .error (.wal e)
  | .ok out =>
    let consumed := out.resume - t.window.base
    if consumed > t.window.buf.length then .error .panic
    else .ok (⟨⟨out.resume, t.window.buf.drop consumed⟩, true⟩, sets.extend out)

end TailScan

/-! ## Calls -/

inductive TailCall where
  | append (lsn : Nat) (bytes : List UInt8)
  | scan
  deriving DecidableEq, Repr

/-- The tail scan of a reader and the reader's dirty sets. -/
structure TailReader where
  tail : TailScan
  sets : DirtySets

namespace TailReader

def new : TailReader := ⟨TailScan.new, DirtySets.empty⟩

def call (floor : Nat) (s : TailReader) : TailCall → Except TailFault TailReader
  | .append lsn bytes => (s.tail.append lsn bytes floor).map fun t => { s with tail := t }
  | .scan => (s.tail.scan s.sets).map fun out => ⟨out.1, out.2⟩

/-- Calls in turn, up to the first that faults. -/
def run (floor : Nat) (s : TailReader) : List TailCall → Except TailFault TailReader
  | [] => .ok s
  | c :: cs =>
    match s.call floor c with
    | .error e => .error e
    | .ok s => run floor s cs

end TailReader

end Zou
