import Mathlib.Algebra.Order.Ring.Nat

/-!
# The low end of a word

`trailingOnes x` is the length of the run of ones a word begins with, from
its least significant bit. A shift by that many takes the run off, and what
is left begins with a zero, so the run of a word without its lowest bit is
empty. `lowMask n` is the word with its `n` lowest bits set.
-/

namespace Bits

variable {w : Nat} {x y : BitVec w}

def trailingOnes (x : BitVec w) : Nat := (List.range w).findIdx fun i => !x.getLsbD i

theorem getLsbD_of_lt_trailingOnes {i : Nat} (h : i < trailingOnes x) : x.getLsbD i = true := by
  simpa using List.not_of_lt_findIdx h

theorem getLsbD_trailingOnes (x : BitVec w) : x.getLsbD (trailingOnes x) = false := by
  by_cases hlt : trailingOnes x < w
  · have hlen : (List.range w).findIdx (fun i => !x.getLsbD i) < (List.range w).length := by
      rw [List.length_range]
      exact hlt
    have h := List.findIdx_getElem (w := hlen)
    simpa [trailingOnes] using h
  · exact BitVec.getLsbD_of_ge _ _ (Nat.le_of_not_lt hlt)

/-- The run is empty where the lowest bit is clear. -/
theorem trailingOnes_eq_zero (h : x.getLsbD 0 = false) : trailingOnes x = 0 := by
  rcases Nat.eq_zero_or_pos (trailingOnes x) with hz | hpos
  · exact hz
  · rw [getLsbD_of_lt_trailingOnes hpos] at h
    cases h

theorem getLsbD_zero_of_trailingOnes (h : trailingOnes x = 0) : x.getLsbD 0 = false := by
  have hb := getLsbD_trailingOnes x
  rwa [h] at hb

/-- Behind its run a word begins with a zero. -/
theorem getLsbD_shift_trailingOnes (x : BitVec w) : (x >>> trailingOnes x).getLsbD 0 = false := by
  rw [BitVec.getLsbD_ushiftRight, Nat.add_zero]
  exact getLsbD_trailingOnes x

/-- The `n` lowest bits. -/
def lowMask (w n : Nat) : BitVec w := (1#w <<< n) - 1#w

theorem getLsbD_lowMask {n i : Nat} (h : n < w) : (lowMask w n).getLsbD i = decide (i < n) := by
  have hnat : (lowMask w n).toNat = 2 ^ n - 1 := by
    have hone : (1#w).toNat = 1 := by
      rw [BitVec.toNat_ofNat]
      exact Nat.mod_eq_of_lt (Nat.one_lt_two_pow (by omega))
    have hpow : (1#w <<< n).toNat = 2 ^ n := by
      rw [BitVec.toNat_shiftLeft, hone, Nat.one_shiftLeft]
      exact Nat.mod_eq_of_lt (Nat.pow_lt_pow_right (by decide) h)
    have hle : 1#w ≤ 1#w <<< n := by
      rw [BitVec.le_def, hone, hpow]
      exact Nat.one_le_two_pow
    rw [lowMask, BitVec.toNat_sub_of_le hle, hone, hpow]
  rw [BitVec.getLsbD, hnat, Nat.testBit_two_pow_sub_one]

end Bits
