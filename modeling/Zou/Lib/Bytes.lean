import Mathlib.Algebra.Order.Ring.Nat

/-!
# Little endian fields in a string of bytes

`le w n` is `n` in `w` bytes, cut to them when it does not fit, and `ofLe`
reads any number of bytes back. `slice b at len` is a range of `b`, short
where `b` ends. A record of fields is a chain of appends; `slice_skip` and
`slice_head` walk down it, with the lengths of the fields as simp lemmas.
-/

namespace Bytes

def le : Nat → Nat → List UInt8
  | 0, _ => []
  | w + 1, n => UInt8.ofNat n :: le w (n / 256)

def ofLe : List UInt8 → Nat
  | [] => 0
  | b :: bs => b.toNat + 256 * ofLe bs

@[simp] theorem length_le (w n : Nat) : (le w n).length = w := by
  induction w generalizing n with
  | zero => rfl
  | succ w ih => rw [le, List.length_cons, ih]

theorem ofLe_le_mod (w n : Nat) : ofLe (le w n) = n % 256 ^ w := by
  induction w generalizing n with
  | zero => rw [le, ofLe, Nat.pow_zero, Nat.mod_one]
  | succ w ih =>
    rw [le, ofLe, ih, Nat.pow_succ', Nat.mod_mul]
    rfl

variable {n : Nat}

theorem ofLe_le {w : Nat} (h : n < 256 ^ w) : ofLe (le w n) = n := by
  rw [ofLe_le_mod, Nat.mod_eq_of_lt h]

theorem ofLe_le16 (h : n < 2 ^ 16) : ofLe (le 2 n) = n := ofLe_le h

theorem ofLe_le32 (h : n < 2 ^ 32) : ofLe (le 4 n) = n := ofLe_le h

theorem ofLe_le64 (h : n < 2 ^ 64) : ofLe (le 8 n) = n := ofLe_le h

theorem ofLe_lt (bs : List UInt8) : ofLe bs < 256 ^ bs.length := by
  induction bs with
  | nil => exact Nat.one_pos
  | cons b bs ih =>
    rw [ofLe, List.length_cons, Nat.pow_succ']
    have hb : b.toNat < 256 := b.toNat_lt
    omega

/-- Items of one length one behind the other. -/
theorem length_flatMap_of_length {α : Type} {bytes : α → List UInt8}
    (h : ∀ x, (bytes x).length = n) (xs : List α) : (xs.flatMap bytes).length = xs.length * n := by
  induction xs with
  | nil => rw [List.flatMap_nil, List.length_nil, List.length_nil, Nat.zero_mul]
  | cons x xs ih =>
    rw [List.flatMap_cons, List.length_append, h, ih, List.length_cons, Nat.succ_mul, Nat.add_comm]

def slice (b : List UInt8) (at_ len : Nat) : List UInt8 := (b.drop at_).take len

variable {b : List UInt8} {at_ len : Nat}

theorem length_slice (h : at_ + len ≤ b.length) : (slice b at_ len).length = len := by
  rw [slice, List.length_take, List.length_drop]
  omega

variable {a : List UInt8}

theorem slice_skip (h : a.length ≤ at_) :
    slice (a ++ b) at_ len = slice b (at_ - a.length) len := by
  rw [slice, List.drop_append, List.drop_eq_nil_of_le h, List.nil_append, slice]

theorem slice_head (h : len = a.length) : slice (a ++ b) 0 len = a := by
  rw [slice, List.drop_zero, h, List.take_left]

theorem slice_all (h : a.length ≤ len) : slice a 0 len = a := by
  rw [slice, List.drop_zero, List.take_of_length_le h]

/-- A range that ends inside the front does not see what follows. -/
theorem slice_within (h : at_ + len ≤ a.length) : slice (a ++ b) at_ len = slice a at_ len := by
  rw [slice, slice, List.drop_append_of_le_length (by omega), List.take_append_of_le_length]
  rw [List.length_drop]
  omega

theorem slice_slice {at' len' : Nat} (h : at' + len' ≤ len) :
    slice (slice b at_ len) at' len' = slice b (at_ + at') len' := by
  rw [slice, slice, slice, List.drop_take, List.drop_drop, List.take_take]
  congr 1
  omega

/-! A record of fields, read at an offset. -/

@[simp] theorem slice_le_skip {w n at_ len : Nat} {b : List UInt8} (h : w ≤ at_) :
    slice (le w n ++ b) at_ len = slice b (at_ - w) len := by
  rw [slice_skip (by rwa [length_le]), length_le]

@[simp] theorem slice_le_head {w n : Nat} {b : List UInt8} : slice (le w n ++ b) 0 w = le w n :=
  slice_head (length_le w n).symm

@[simp] theorem slice_le {w n : Nat} : slice (le w n) 0 w = le w n :=
  slice_all (Nat.le_of_eq (length_le w n))

/-! Fields of the machine's widths. -/

@[simp] theorem ofLe_le_u32 (x : UInt32) : UInt32.ofNat (ofLe (le 4 x.toNat)) = x := by
  rw [ofLe_le32 x.toNat_lt, UInt32.ofNat_toNat]

@[simp] theorem ofLe_le_u64 (x : UInt64) : UInt64.ofNat (ofLe (le 8 x.toNat)) = x := by
  rw [ofLe_le64 x.toNat_lt, UInt64.ofNat_toNat]

theorem ofLe_le128 (h : n < 2 ^ 128) : ofLe (le 16 n) = n := ofLe_le h

@[simp] theorem ofLe_le_u128 (x : BitVec 128) : BitVec.ofNat 128 (ofLe (le 16 x.toNat)) = x := by
  rw [ofLe_le128 x.isLt, BitVec.ofNat_toNat, BitVec.setWidth_eq]

/-- What a field of `w` bytes reads as. -/
theorem ofLe_slice_lt (b : List UInt8) (at_ w : Nat) : ofLe (slice b at_ w) < 256 ^ w := by
  refine Nat.lt_of_lt_of_le (ofLe_lt _) (Nat.pow_le_pow_right (by omega) ?_)
  rw [slice, List.length_take]
  exact Nat.min_le_left ..

end Bytes
