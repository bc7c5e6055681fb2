import Mathlib.Data.List.DropRight
import Zou.HorizonFor
import Zou.WalScan

/-!
# Capture and restore of the files of a checkpoint

A capture is a list of files with what they held and a list of empty
directories. `upload` writes each file as an object, less its trailing
zeros, and the wal segment of the redo location as two pieces, its first
page and what follows from the redo page on; the INDEX has a line for each
file, one of three kinds, and `restore_fs` reads it back.

Objects are immutable. A retried upload keeps what an earlier one put and
describes it by its length.

The objects are those of one checkpoint. A path is a list of characters,
and the restored tree is what each path holds; making directories, file
modes and the counts that `restore_fs` returns are left out.
-/

namespace Zou.Chk

abbrev Path := List Char

abbrev Bytes := List UInt8

/-! ## What a file is stored as -/

/-- `without_trailing_zeros`. -/
def withoutTrailingZeros (data : Bytes) : Bytes := data.rdropWhile (· = 0)

/-- The two pieces of the redo segment: the body, how much of it belongs at
offset zero, and where the rest belongs. -/
structure WalPieces where
  body : Bytes
  head : Nat
  at_ : Nat
  deriving DecidableEq, Repr

def utf8Len : List Char → Nat
  | [] => 0
  | c :: s => c.utf8Size + utf8Len s

/-- A slice of the first `n` bytes and of the others, none where the cut is
inside a character. -/
def splitBytes : Nat → List Char → Option (List Char × List Char)
  | 0, s => some ([], s)
  | _ + 1, [] => none
  | n + 1, c :: s =>
    if c.utf8Size ≤ n + 1 then
      (splitBytes (n + 1 - c.utf8Size) s).map fun x => (c :: x.1, x.2)
    else none

def hexDigit (c : Char) : Option Nat :=
  if '0' ≤ c ∧ c ≤ '9' then some (c.toNat - '0'.toNat)
  else if 'a' ≤ c ∧ c ≤ 'f' then some (c.toNat - 'a'.toNat + 10)
  else if 'A' ≤ c ∧ c ≤ 'F' then some (c.toNat - 'A'.toNat + 10)
  else none

/-- `u64::from_str_radix`, of eight bytes. -/
def parseHex (s : List Char) : Option Nat :=
  let digits := if s.head? = some '+' then s.tail else s
  if digits = [] then none
  else digits.foldlM (fun n c => (hexDigit c).map (16 * n + ·)) 0

/-- Whether a segment file's name covers an lsn, none where a slice of the
name panics. -/
def walSegmentHolds (name : List Char) (lsn : Lsn) : Option Bool :=
  if utf8Len name ≠ 24 then some false
  else do
    let (_, rest) ← splitBytes 8 name
    let (hi, lo) ← splitBytes 8 rest
    match parseHex hi, parseHex lo with
    | some hi, some lo => some (hi * (2 ^ 32 / walSegmentSize) + lo = lsn / walSegmentSize)
    | _, _ => some false

/-- The pieces of the segment that holds `redo`, none for any other file. -/
def walPieces (relpath : Path) (data : Bytes) (redo : Lsn) : Option (Option WalPieces) :=
  match stripPrefix "pg_wal/".toList relpath with
  | none => some none
  | some name => do
      if !(← walSegmentHolds name redo) then return none
      let at_ := redo % walSegmentSize / xlogBlcksz * xlogBlcksz
      if at_ ≤ xlogBlcksz ∨ at_ ≥ data.length then return none
      let head := min xlogBlcksz data.length
      let stop := max (withoutTrailingZeros data).length at_
      return some ⟨data.take head ++ (data.take stop).drop at_, head, at_⟩

/-! ## The index -/

/-- A line of the INDEX, less its path: the object is the file, or the file
less its trailing zeros, or the file less a hole as well. -/
inductive Line where
  | whole (size : Nat)
  | trimmed (size stored : Nat)
  | holed (size stored head at_ : Nat)
  deriving DecidableEq, Repr

def decimal (n : Nat) : List Char := Nat.toDigits 10 n

def Line.text (path : Path) : Line → List Char
  | .whole size => "f ".toList ++ path ++ ' ' :: decimal size
  | .trimmed size stored => "t ".toList ++ decimal size ++ ' ' :: decimal stored ++ ' ' :: path
  | .holed size stored head at_ =>
    "h ".toList ++ decimal size ++ ' ' :: decimal stored ++ ' ' :: decimal head
      ++ ' ' :: decimal at_ ++ ' ' :: path

def dirText (dir : Path) : List Char := "d ".toList ++ dir

/-- The line of a file of `size` bytes whose object has `stored`. -/
def lineOf (pieces : Option WalPieces) (size stored : Nat) : Line :=
  match pieces with
  | some p =>
    if stored = p.body.length then .holed size stored p.head p.at_
    else if stored = size then .whole size
    else .trimmed size stored
  | none => if stored = size then .whole size else .trimmed size stored

/-! ## Uploads -/

/-- What the store has of a checkpoint. -/
structure ChkStore where
  objects : Path → Option Bytes
  index : Option (List Char)

def ChkStore.empty : ChkStore := ⟨fun _ => none, none⟩

inductive UploadError where
  | alreadyExists (path : Path)
  | indexExists
  /-- A file name was sliced inside a character. -/
  | panicked
  deriving DecidableEq, Repr

/-- The pieces of a file under the capture's redo. -/
def piecesOf (redo : Option Lsn) (path : Path) (data : Bytes) : Option (Option WalPieces) :=
  match redo with
  | none => some none
  | some redo => walPieces path data redo

def bodyOf (pieces : Option WalPieces) (data : Bytes) : Bytes :=
  match pieces with
  | some p => p.body
  | none => withoutTrailingZeros data

/-- The objects of the files, the lines they get, and the bytes stored. -/
def uploadFiles (keepExisting : Bool) (redo : Option Lsn) :
    List (Path × Bytes) → ChkStore → List Char → Nat →
      ChkStore × Except UploadError (List Char × Nat)
  | [], s, index, bytes => (s, .ok (index, bytes))
  | (path, data) :: files, s, index, bytes =>
    match piecesOf redo path data with
    | none => (s, .error .panicked)
    | some pieces =>
      let line (stored : Nat) := (lineOf pieces data.length stored).text path ++ ['\n']
      match s.objects path with
      | none =>
        let body := bodyOf pieces data
        uploadFiles keepExisting redo files
          { s with objects := Function.update s.objects path (some body) }
          (index ++ line body.length) (bytes + body.length)
      | some existing =>
        if keepExisting then
          uploadFiles keepExisting redo files s (index ++ line existing.length)
            (bytes + existing.length)
        else (s, .error (.alreadyExists path))

/-- What is uploaded, the files with distinct paths of one line each. -/
structure Capture where
  files : List (Path × Bytes)
  dirs : List Path
  paths : (files.map Prod.fst).Nodup
  lines : ∀ path ∈ files.map Prod.fst ++ dirs, '\n' ∉ path
  sizes : ∀ f ∈ files, f.2.length < 2 ^ 64

def upload (c : Capture) (keepExisting : Bool) (redo : Option Lsn) (s : ChkStore) :
    ChkStore × Except UploadError Nat :=
  match uploadFiles keepExisting redo c.files s [] 0 with
  | (s, .error e) => (s, .error e)
  | (s, .ok (index, bytes)) =>
    match s.index with
    | none =>
      ({ s with index := some (index ++ c.dirs.flatMap fun dir => dirText dir ++ ['\n']) },
        .ok bytes)
    | some _ => if keepExisting then (s, .ok bytes) else (s, .error .indexExists)

/-! ## Restore -/

/-- A file that the INDEX asks for. -/
structure Wanted where
  relpath : Path
  size : Nat
  stored : Nat
  hole : Option (Nat × Nat)
  deriving DecidableEq, Repr

/-- A line without the carriage return before its newline. -/
def stripCr (line : List Char) : List Char :=
  if line.getLast? = some '\r' then line.dropLast else line

end Zou.Chk
