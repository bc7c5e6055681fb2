import Mathlib.Data.List.MinMax
import Mathlib.Data.List.Nodup
import Zou.CaptureRestore

/-!
# Uploads over interrupted attempts

Attempts of one checkpoint id put objects until they stop, and a last
upload puts the rest, writes the INDEX and is restored. An object is the
body of the attempt that put it, the line is the last upload's, which knows
of a kept object only how long it is. A restore is right where the object is
taken for what some capture of the file has at each offset, as a new object
always is.
-/

namespace Zou.Chk

/-! ## One upload -/

/-- The pieces of a file, none also where the name cannot be sliced. -/
def cutOf (redo : Option Lsn) (f : Path × Bytes) : Option WalPieces :=
  (piecesOf redo f.1 f.2).join

variable {redo : Option Lsn} {f : Path × Bytes}

/-- The object of a file behind an upload: one that was there, or its body. -/
def objectOf (s : ChkStore) (redo : Option Lsn) (f : Path × Bytes) : Bytes :=
  (s.objects f.1).getD (bodyOf (cutOf redo f) f.2)

def fileLine (s : ChkStore) (redo : Option Lsn) (f : Path × Bytes) : Line :=
  lineOf (cutOf redo f) f.2.length (objectOf s redo f).length

variable {s s' : ChkStore}

variable {path : Path} {data existing : Bytes}

variable {keep : Bool} {files : List (Path × Bytes)} {n : Nat}

/-- An attempt that stops in front of a file, or of its INDEX. -/
structure Attempt where
  capture : Capture
  keepExisting : Bool
  redo : Option Lsn
  stop : Nat

def Attempt.run (s : ChkStore) (a : Attempt) : ChkStore :=
  (uploadFiles a.keepExisting a.redo (a.capture.files.take a.stop) s [] 0).1

/-- The path of a line reads back. -/
def Line.ReadsBack (path : Path) : Line → Prop
  | .whole _ => True
  | _ => path.getLast? ≠ some '\r'

theorem Line.ReadsBack.readPath {line : Line} (h : line.ReadsBack path) :
    line.readPath path = path := by
  cases line with
  | whole => rfl
  | trimmed | holed => exact if_neg h

variable {c : Capture}

/-- The files that a restore is asked for. -/
def asked (c : Capture) (redo : Option Lsn) (s : ChkStore) : List Wanted :=
  c.files.map fun f => (fileLine s redo f).wanted f.1

/-- A file has the bytes of an object where they belong: all from the front
on, or what follows the first piece from the second one's offset on. -/
def Agrees (cut : Option WalPieces) (object data : Bytes) (size : Nat) : Prop :=
  match cut with
  | none => ∀ i < size, data[i]? = some (object.getD i 0)
  | some p => ∀ i < size, (i < p.head → data[i]? = some (object.getD i 0))
      ∧ (p.at_ ≤ i → data[i]? = some (object.getD (p.head + (i - p.at_)) 0))

/-- The pieces an object is taken for: those of the file, where it is as
long as they are together. -/
def takenFor (redo : Option Lsn) (f : Path × Bytes) (object : Bytes) : Option WalPieces :=
  (cutOf redo f).filter fun p => object.length = p.body.length

/-- A file is stored whole: a new object of no pieces and no trailing zero,
or a kept one of the file's length. -/
def StoredWhole (redo : Option Lsn) (f : Path × Bytes) : Option Bytes → Prop
  | none => cutOf redo f = none ∧ withoutTrailingZeros f.2 = f.2
  | some object => takenFor redo f object = none ∧ object.length = f.2.length

/-- A file is safe to upload over a store: its path keeps its last character
on the line, and an object that is kept for it is taken for what some
capture of the file has there. -/
structure Clear (captures : List Capture) (s : ChkStore) (redo : Option Lsn) (f : Path × Bytes) :
    Prop where
  back : f.1.getLast? ≠ some '\r' ∨ StoredWhole redo f (s.objects f.1)
  kept : ∀ object, s.objects f.1 = some object → ∃ c ∈ captures, ∃ data, (f.1, data) ∈ c.files
    ∧ Agrees (takenFor redo f object) object data f.2.length

variable {pieces : Option WalPieces}

def lone (path : Path) (data : Bytes) (hpath : '\n' ∉ path) (hsize : data.length < 2 ^ 64) :
    Capture where
  files := [(path, data)]
  dirs := []
  paths := List.nodup_singleton _
  lines := fun p hp => by
    rw [List.append_nil, List.map_singleton, List.mem_singleton] at hp
    exact hp ▸ hpath
  sizes := fun f hf => List.mem_singleton.mp hf ▸ hsize

/-- The segment of a redo location on its third page, with what was written
of it there. -/
def segment (tail : Bytes) : Bytes := List.replicate 16384 0 ++ tail

def segmentPath : Path := "pg_wal/000000010000000000000001".toList

def written : Capture :=
  lone segmentPath (segment [7, 7]) (by decide) (by
    unfold segment
    rw [List.length_append, List.length_replicate]
    decide)

end Zou.Chk
