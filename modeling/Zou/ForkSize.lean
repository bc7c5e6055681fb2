import Zou.Lib.Bits
import Zou.Lib.Bytes
import Zou.Lib.Trace

/-!
# What a fork's SIZE marker claims

A marker holds the block count of a fork and what is known to have been
written: every block below `dense`, and the blocks of a window of 64 behind
it that have a bit set. `walk` moves `dense` over the set bits it stands
in front of and shifts the window with it.

Views of one fork are filled, grown, cut, stored and merged in any order.
`ForkStep` says how. As a ghost, a view carries the fills and the cuts it
was told of with their place in the run, so that two histories that meet in
a merge say which of them came later.
-/

namespace Zou

open Bits Bytes

/-- The block count of a fork and what is known to have been written. -/
structure ForkSize where
  nblocks : Nat
  dense : Nat
  filled : BitVec 64
  deriving DecidableEq, Repr

namespace ForkSize

/-- How far past `dense` the bits reach. -/
def window : Nat := 64

/-- Block numbers and counts are 32 bits wide. -/
def u32Max : Nat := 2 ^ 32 - 1

def plain (nblocks : Nat) : ForkSize := ⟨nblocks, 0, 0⟩

/-- Move `dense` over the prefix of the window that is set. -/
def walk (s : ForkSize) : ForkSize :=
  let steps := trailingOnes s.filled
  if steps = 0 then s
  else { s with
    dense := min (min (s.dense + steps) u32Max) s.nblocks
    filled := if steps ≥ window then 0 else s.filled >>> steps }

def decode (bytes : List UInt8) : Option ForkSize :=
  if bytes.length = 4 then some (plain (ofLe bytes))
  else if bytes.length = 16 then
    let nblocks := ofLe (slice bytes 0 4)
    let dense := ofLe (slice bytes 4 4)
    let filled := BitVec.ofNat 64 (ofLe (slice bytes 8 8))
    some (walk ⟨nblocks, min dense nblocks, filled⟩)
  else none

def encode (s : ForkSize) : List UInt8 :=
  le 4 s.nblocks ++ (le 4 s.dense ++ le 8 s.filled.toNat)

def written (s : ForkSize) (blk : Nat) : Bool := blk < s.dense

/-- The bit of `blk` set, with `dense` not yet walked. -/
def mark (s : ForkSize) (blk : Nat) : ForkSize :=
  { s with filled := s.filled ||| 1#64 <<< (blk - s.dense) }

def fill (s : ForkSize) (blk : Nat) : ForkSize :=
  if blk < s.dense then s
  else if blk - s.dense ≥ window then s
  else (s.mark blk).walk

/-- The blocks of a run: `blk..blk.saturating_add(count)`. -/
def runBlocks (blk count : Nat) : List Nat := List.range' blk (min (blk + count) u32Max - blk)

def fillRun (s : ForkSize) (blk count : Nat) : ForkSize := (runBlocks blk count).foldl fill s

def grow (s : ForkSize) (nblocks : Nat) : ForkSize :=
  if nblocks > s.nblocks then { s with nblocks } else s

def truncate (s : ForkSize) (nblocks : Nat) : ForkSize :=
  if s.dense > nblocks then ⟨nblocks, nblocks, 0⟩
  else
    let room := nblocks - s.dense
    { s with
      nblocks
      filled := if room < window then s.filled &&& lowMask 64 room else s.filled }

/-- `behind`'s window lined up on `ahead` and united with its own. -/
def union (ahead behind : ForkSize) (nblocks : Nat) : ForkSize :=
  let shift := ahead.dense - behind.dense
  let lifted := if shift ≥ window then 0 else behind.filled >>> shift
  ⟨nblocks, min ahead.dense nblocks, ahead.filled ||| lifted⟩

/-- What `merge` walks. -/
def joined (s other : ForkSize) : ForkSize :=
  let nblocks := max s.nblocks other.nblocks
  if s.dense ≥ other.dense then union s other nblocks else union other s nblocks

def merge (s other : ForkSize) : ForkSize := (joined s other).walk

end ForkSize

/-! ## Views -/

inductive ForkEvent where
  | fill (blk : Nat)
  | cut (nblocks : Nat)
  deriving DecidableEq, Repr

/-- Whether the event takes `blk` out of the fork. -/
def ForkEvent.cutsOff (blk : Nat) : ForkEvent → Bool
  | .fill _ => false
  | .cut nblocks => nblocks ≤ blk

/-- A history has a fill of `blk`, and no cut at or below it that is not
before that fill. -/
def filledSince (told : List (Nat × ForkEvent)) (blk : Nat) : Bool :=
  told.any fun e => e.2 = .fill blk && told.all fun c => !c.2.cutsOff blk || c.1 < e.1

/-- A view of a fork, and what it was told of and when. -/
structure ForkView where
  size : ForkSize
  told : List (Nat × ForkEvent)
  deriving DecidableEq, Repr

namespace ForkView

def plain (nblocks : Nat) : ForkView := ⟨.plain nblocks, []⟩

def fill (v : ForkView) (now blk : Nat) : ForkView := ⟨v.size.fill blk, (now, .fill blk) :: v.told⟩

def fillRun (v : ForkView) (now blk count : Nat) : ForkView :=
  (ForkSize.runBlocks blk count).foldl (fill · now) v

def grow (v : ForkView) (nblocks : Nat) : ForkView := ⟨v.size.grow nblocks, v.told⟩

def truncate (v : ForkView) (now nblocks : Nat) : ForkView :=
  ⟨v.size.truncate nblocks, (now, .cut nblocks) :: v.told⟩

/-- What a reader of the stored marker sees. -/
def stored (v : ForkView) : Option ForkView :=
  (ForkSize.decode v.size.encode).map fun size => ⟨size, v.told⟩

def merge (v w : ForkView) : ForkView := ⟨v.size.merge w.size, v.told ++ w.told⟩

end ForkView

/-- One step of anybody: a view is made, changed, stored and read back, or
two views are merged into a third. Counts and block numbers are of the
machine's width. -/
inductive ForkStep where
  | plain (nblocks : Nat)
  | fill (i blk : Nat)
  | fillRun (i blk count : Nat)
  | grow (i nblocks : Nat)
  | truncate (i nblocks : Nat)
  | store (i : Nat)
  | merge (i j : Nat)
  deriving DecidableEq, Repr

/-- The views of a fork, and how many steps were taken. -/
structure Forks where
  clock : Nat
  views : List ForkView
  deriving DecidableEq, Repr

namespace Forks

open ForkSize (u32Max)

def empty : Forks := ⟨0, []⟩

/-- Replace view `i`. -/
def change (s : Forks) (i : Nat) (f : ForkView → ForkView) : Option Forks :=
  s.views[i]?.map fun v => ⟨s.clock + 1, s.views.set i (f v)⟩

def add (s : Forks) (v : ForkView) : Forks := ⟨s.clock + 1, s.views ++ [v]⟩

def next (s : Forks) : ForkStep → Option Forks
  | .plain nblocks => if nblocks ≤ u32Max then some (s.add (.plain nblocks)) else none
  | .fill i blk => if blk ≤ u32Max then s.change i (·.fill s.clock blk) else none
  | .fillRun i blk count =>
    if blk ≤ u32Max ∧ count ≤ u32Max then s.change i (·.fillRun s.clock blk count) else none
  | .grow i nblocks => if nblocks ≤ u32Max then s.change i (·.grow nblocks) else none
  | .truncate i nblocks => if nblocks ≤ u32Max then s.change i (·.truncate s.clock nblocks) else none
  | .store i => do
      let v ← s.views[i]?
      let w ← v.stored
      some (s.add w)
  | .merge i j => do
      let v ← s.views[i]?
      let w ← s.views[j]?
      some (s.add (v.merge w))

end Forks

end Zou
