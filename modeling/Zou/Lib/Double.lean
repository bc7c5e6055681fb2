import Mathlib.Algebra.Order.Ring.Nat

/-!
# Doubles by their bits

The comparison of two doubles, read off their bits: sign and magnitude rank
a value that is a number, the two zeroes rank the same, and what is not a
number compares with nothing.
-/

/-- A double, by its bits. -/
structure F64 where
  bits : UInt64
  deriving DecidableEq

namespace F64

/-- The bits less the sign. -/
def magnitude (x : F64) : Nat := x.bits.toNat % 2 ^ 63

def isNegative (x : F64) : Bool := 2 ^ 63 ≤ x.bits.toNat

/-- All bits of the exponent, and one of the fraction. -/
def isNan (x : F64) : Bool := 0x7ff0000000000000 < x.magnitude

def rank (x : F64) : Int := if x.isNegative then -x.magnitude else x.magnitude

def partialCmp (x y : F64) : Option Ordering :=
  if x.isNan || y.isNan then none else some (compare x.rank y.rank)

/-- The bits with the two zeroes read as one. -/
def key (x : F64) : Nat := if x.rank = 0 then 0 else x.bits.toNat

/-- A zero, a value above it and one below. -/
theorem key_cases (x : F64) : x.rank = 0 ∧ x.key = 0 ∨
      0 < x.rank ∧ x.rank < 2 ^ 63 ∧ x.key = x.bits.toNat ∧ x.rank = x.bits.toNat ∨
      x.rank < 0 ∧ x.key = x.bits.toNat ∧ x.rank = 2 ^ 63 - x.bits.toNat := by
  have hx := x.bits.toNat_lt
  by_cases hzero : x.rank = 0
  · exact .inl ⟨hzero, if_pos hzero⟩
  · have hkey : x.key = x.bits.toNat := if_neg hzero
    have hmag : x.magnitude = x.bits.toNat % 2 ^ 63 := rfl
    refine .inr ?_
    by_cases hneg : 2 ^ 63 ≤ x.bits.toNat
    · have hrank : x.rank = -x.magnitude := if_pos (decide_eq_true hneg)
      exact .inr ⟨by omega, hkey, by omega⟩
    · have hrank : x.rank = x.magnitude := if_neg (by simpa [isNegative] using hneg)
      exact .inl ⟨by omega, by omega, hkey, by omega⟩

theorem key_eq_key {x y : F64} : x.key = y.key ↔ x.rank = y.rank := by
  have hx := key_cases x
  have hy := key_cases y
  omega

/-- Two numbers are equal when they are filed under one key. -/
theorem partialCmp_eq {x y : F64} :
    x.partialCmp y = some .eq ↔ x.isNan = false ∧ y.isNan = false ∧ x.key = y.key := by
  unfold partialCmp
  rw [key_eq_key]
  cases x.isNan <;> cases y.isNan <;> simp

end F64
