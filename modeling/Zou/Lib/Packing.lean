import Mathlib.Algebra.Order.Ring.Nat

/-!
# Compressed blocks and crcs of short inputs

An lz4 block that is one run of literals, which is what a compressor makes
of a short input that does not repeat, and crc32c bit by bit.
-/

namespace Packing

/-- The length of a run of literals past the fifteen its token counts. -/
def literalLen (n : Nat) : List UInt8 := List.replicate (n / 255) 255 ++ [UInt8.ofNat (n % 255)]

def literalBlock (x : List UInt8) : List UInt8 :=
  (if x.length < 15 then [UInt8.ofNat (x.length * 16)] else 240 :: literalLen (x.length - 15)) ++ x

/-- The literals of a block, when it is one. -/
def literals (b : List UInt8) (n : Nat) : Option (List UInt8) :=
  if literalBlock (b.drop (b.length - n)) = b then some (b.drop (b.length - n)) else none

theorem literals_literalBlock (x : List UInt8) : literals (literalBlock x) x.length = some x := by
  have hdrop : (literalBlock x).drop ((literalBlock x).length - x.length) = x := by
    rw [literalBlock, List.length_append, Nat.add_sub_cancel, List.drop_left]
  rw [literals, hdrop, if_pos rfl]

def crc32cBit (crc : UInt32) : UInt32 :=
  if crc &&& 1 = 1 then (crc >>> 1) ^^^ 0x82F63B78 else crc >>> 1

/-- The crc goes on where another stopped. -/
def crc32cAppend (crc : UInt32) (bs : List UInt8) : UInt32 :=
  ~~~ bs.foldl (fun crc b => crc32cBit^[8] (crc ^^^ b.toUInt32)) (~~~ crc)

def crc32c (bs : List UInt8) : UInt32 := crc32cAppend 0 bs

end Packing
