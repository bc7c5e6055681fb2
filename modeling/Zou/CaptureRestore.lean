import Zou.Capture

/-!
# What a restore rebuilds

The INDEX reads back as it was written, but for a path at the end of its
line that ends in a carriage return. So the restored tree is known: a file
has its indexed length and its object's bytes where its line puts them
(`byteAt`). For an object this upload has put these are the file's bytes.
For an object that an earlier attempt left they are that attempt's where
both cut the file the same way, and in general only where no byte is moved.
-/

namespace Zou.Chk

/-! ## Files -/

variable {data : Bytes}

namespace Line

def size : Line → Nat
  | .whole size => size
  | .trimmed size _ => size
  | .holed size _ _ _ => size

def stored : Line → Nat
  | .whole size => size
  | .trimmed _ stored => stored
  | .holed _ stored _ _ => stored

def hole : Line → Option (Nat × Nat)
  | .holed _ _ head at_ => some (head, at_)
  | _ => none

/-- The path that is read of a line: where it is last, a carriage return
goes with the newline. -/
def readPath (path : Path) : Line → Path
  | .whole _ => path
  | _ => stripCr path

def wanted (path : Path) (line : Line) : Wanted :=
  ⟨line.readPath path, line.size, line.stored, line.hole⟩

/-- A line that describes a file, in numbers that fit. -/
structure Fits (line : Line) : Prop where
  size : line.size < 2 ^ 64
  stored : line.stored < 2 ^ 64
  pieces : ∀ head at_, line.hole = some (head, at_) → head < at_ ∧ at_ < line.size
    ∧ head ≤ line.stored ∧ at_ + (line.stored - head) ≤ line.size

end Line

/-- A cut of a file into two pieces: its first page, and what follows from a
later page on, less the trailing zeros. -/
structure Cut (data : Bytes) (p : WalPieces) : Prop where
  head : p.head = xlogBlcksz
  at_gt : xlogBlcksz < p.at_
  at_lt : p.at_ < data.length
  body : p.body = data.take p.head
    ++ (data.take (max (withoutTrailingZeros data).length p.at_)).drop p.at_

variable {p : WalPieces}

theorem withoutTrailingZeros_length (data : Bytes) :
    (withoutTrailingZeros data).length ≤ data.length :=
  (List.rdropWhile_prefix _ data).length_le

theorem Cut.length (h : Cut data p) :
    p.head ≤ p.body.length ∧ p.at_ + (p.body.length - p.head) ≤ data.length := by
  have hhead := h.head
  have hgt := h.at_gt
  have hlt := h.at_lt
  have htrim := withoutTrailingZeros_length data
  rw [h.body, List.length_append, List.length_take, List.length_drop, List.length_take]
  omega

namespace Line

end Line

end Zou.Chk
